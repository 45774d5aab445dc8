import Graft.Proofs.Layout.Spells
import Graft.Proofs.Grammar.Nesting

/-! # The layouts of rows

Every node of code that is laid out by itself is laid out as its words stand in the source
(`Spelling.spells`).  As for the fields (`Row.lays`), this is a check of the rows of the grammar.
Three parts are put together from their words in ways of their own: arguments, whose dots are laid
out behind the last of them, the targets of a loop, of which the third and those behind it are left
out, and parameters, which share the type of the next.
-/

namespace Graft

/-- Whether no other word begins where a token stands. -/
def Word.Distinct (ws : List Word) : Prop :=
  ∀ l, .lexeme l ∈ ws → l.token ≠ .semicolon → (positionsAll ws).count l.pos ≤ 1

namespace Word.Distinct

variable {vs ws : List Word}

theorem sublist (h : Distinct ws) (hsub : vs.Sublist ws) : Distinct vs := fun l hl hsemi =>
  Nat.le_trans ((hsub.flatMap _).count_le _) (h l (hsub.subset hl) hsemi)

theorem left (h : Distinct (vs ++ ws)) : Distinct vs := h.sublist (List.sublist_append_left _ _)

theorem right (h : Distinct (vs ++ ws)) : Distinct ws := h.sublist (List.sublist_append_right _ _)

theorem tail {w : Word} (h : Distinct (w :: ws)) :
    Distinct ws := h.sublist (List.sublist_cons_self _ _)

end Word.Distinct

/-- The place of dots behind an argument is recorded in none of the arguments. -/
theorem IsSpread.not_mem {ws : List Word} {xs : List Tree} {p : Pos} (h : IsSpread ws xs p)
    (hws : Word.Distinct ws) (hp : p ≠ .none) : ∃ l, .lexeme l ∈ ws ∧
      l.token = .ellipsis ∧ p = l.pos ∧
      ∀ t ∈ xs, l.pos ∉ t.positions := by
  obtain ⟨l, hl, htoken, rfl, hsub⟩ := h.resolve_left hp
  refine ⟨l, hl, htoken, rfl, fun t ht hmem => ?_⟩
  have hcount := Nat.le_trans (hsub.count_le l.pos) (hws l hl (by rw [htoken]; decide))
  rw [List.count_cons_self] at hcount
  have hpos : 0 < (Tree.positionsAll xs).count l.pos :=
    List.count_pos_iff.mpr (Tree.mem_positionsAll.mpr ⟨t, ht, hmem⟩)
  omega

namespace Spells

variable {page : Page} {read us vs ws : List Word} {s sep : Separator} {since : Option Nat}
  {l : Lexeme} {t : Tree}
  {ts : List Tree} {is js : List Item}

/-! ### Arguments -/

/-- Dots behind an argument that are not laid out there. -/
theorem dots (h : vs = [] ∨ ∃ l, vs = [.lexeme l] ∧ l.token = .ellipsis)
    (hrest : ∀ read since, since = none ∨ since = some 0 → Spells page read s since us is) :
    Spells page read s (some 0) (vs ++ us) is := by
  rcases h with rfl | ⟨l, rfl, hl⟩
  · exact hrest _ _ (.inr rfl)
  · exact .unread (.head (by rw [hl]; rfl)) (hrest _ _ (.inl rfl))

/-- Arguments with commas between: all but the last are laid out with their commas, and their dots
are not. -/
theorem args (h : Commas (Derives .code .arg) ws ts) (hne : ts ≠ []) (hs : since.all s.suits = true)
    (hlast : ∀ read' s since vs ds t, read ++ ws = read' ++ (vs ++ ds) → since.all s.suits = true →
      Derives .code .expr vs t → t ∈ ts → (ds = [] ∨ ∃ l, ds = [.lexeme l] ∧ l.token = .ellipsis) →
      Spells page read' s since (vs ++ (ds ++ us)) (.tree t :: is)) :
    Spells page read s since (ws ++ us) (Item.separated .comma ts ++ is) := by
  induction h generalizing read s since with
  | nil => exact absurd rfl hne
  | last ht =>
    obtain ⟨vs, ds, rfl, ht, hds⟩ := ht.arg_cases
    rw [List.append_assoc]
    exact hlast _ _ _ _ _ _ rfl hs ht List.mem_cons_self hds
  | @cons _ ws l _ ts ht hl htail _ ih =>
    obtain ⟨vs, ds, rfl, ht, hds⟩ := ht.arg_cases
    rw [separated_cons htail, List.append_assoc, List.append_assoc]
    refine .phrase ht rfl hs ?_
    have hnext (read' : List Word) (since : Option Nat) (hsince : since = none ∨ since = some 0)
        (hread : read ++ ((vs ++ ds) ++ .lexeme l :: ws) = read' ++ .lexeme l :: ws) :
        Spells page read' .nothing since (.lexeme l :: ws ++ us)
          (.gap .comma :: (Item.separated .comma ts ++ is)) := by
      refine .comma hl (.gap (ih htail ?_ fun read'' s since vs ds t hread' hs' ht hmem hds => ?_))
      · rcases hsince with rfl | rfl <;> rfl
      · refine hlast read'' s since vs ds t ?_ hs' ht (List.mem_cons_of_mem _ hmem) hds
        rw [hread, ← hread', List.append_assoc, List.singleton_append]
    rcases hds with rfl | ⟨m, rfl, hm⟩
    · exact hnext _ _ (.inr rfl) (by simp)
    · exact .unread (.head (by rw [hm]; rfl)) (hnext _ _ (.inl rfl) (by simp))

/-- The arguments of a call, and the dots behind them. -/
theorem arguments {p : Pos} (h : Derives .code (.trailing .arg) ws (.list ts))
    (hspread : IsSpread ws ts p) (hws : Word.Distinct ws) (hplaced : ∀ w ∈ ws, w.Placed)
    (hrest : ∀ read since, since.all (Separator.suits .close) = true →
      Spells page read .close since us is) :
    Spells page read .nothing (some 0) (ws ++ us)
      (Item.separated .comma ts ++ ((if p.isValid then [.token p "..."] else []) ++
        .gap .close :: is)) := by
  obtain ⟨ts, vs, trail, heq, rfl, hts, htrail⟩ := h.trailing
  cases heq
  -- behind the last argument stands a comma or none
  have hend (read : List Word) (since : Option Nat) (hsince : since = none ∨ since = some 0) :
      Spells page read .nothing since (trail ++ us) (.gap .close :: is) := by
    rcases htrail with rfl | ⟨l, rfl, hl⟩
    · exact .gap (hrest _ _ (by rcases hsince with rfl | rfl <;> rfl))
    · exact .comma hl (.gap (hrest _ _ (by rcases hsince with rfl | rfl <;> rfl)))
  rw [List.append_assoc]
  by_cases hp : p = .none
  · subst hp
    by_cases hne : ts = []
    · subst hne
      cases hts with
      | nil => exact hend _ _ (.inr rfl)
    · refine .args hts hne rfl fun read' s since vs ds t _ hs ht _ hds => ?_
      exact .phrase ht rfl hs (.dots hds hend)
  · obtain ⟨l, hl, htoken, rfl, hpos⟩ := hspread.not_mem hws hp
    have hvalid : l.pos.isValid = true := hplaced _ hl
    have htext : l.spelling = "..." := by
      rw [Lexeme.spelling_of_not_carriesText (by rw [htoken]; rfl), htoken]
      rfl
    have hloose : l.token.isLoose = false := by
      rw [htoken]
      rfl
    -- the dots are no comma at the end
    have hl : .lexeme l ∈ vs := by
      rcases List.mem_append.mp hl with hl | hl
      · exact hl
      · rcases htrail with rfl | ⟨m, rfl, hm⟩
        · cases hl
        · cases List.mem_singleton.mp hl
          rw [htoken] at hm
          cases hm
    have hne : ts ≠ [] := by
      rintro rfl
      cases hts with
      | nil => cases hl
    rw [if_pos hvalid, ← htext]
    refine .args hts hne rfl fun read' s since vs' ds t hread hs ht hmem hds => ?_
    by_cases hlast : .lexeme l ∈ ds
    · obtain rfl : ds = [.lexeme l] := by
        rcases hds with rfl | ⟨m, rfl, -⟩
        · cases hlast
        · rw [List.mem_singleton.mp hlast]
      exact .phrase ht rfl hs (.token rfl hloose (hend _ _ (.inr rfl)))
    · have hbefore : .lexeme l ∈ read' ++ vs' := by
        have hmem : .lexeme l ∈ read' ++ (vs' ++ ds) := hread ▸ List.mem_append_right _ hl
        rw [← List.append_assoc] at hmem
        exact (List.mem_append.mp hmem).resolve_right hlast
      refine .stray hs (.phrase rfl ht) hloose hbefore (hpos t hmem) ?_
      rcases hds with rfl | ⟨m, rfl, hm⟩
      · exact hend _ _ (.inl rfl)
      · exact .unread (.head (by rw [hm]; rfl)) (hend _ _ (.inl rfl))

end Spells

/-! ### Parameters -/

theorem Derives.not_dots {ws : List Word} {t : Tree} : ¬ Derives .code .dots ws t := by
  intro h
  cases h with
  | dots hd => cases hd
  | cover hc => cases hc
  | node hr => cases hr

/-- Another first tree in place of one, whose words stand behind others. -/
theorem Commas.replace {P Q : List Word → Tree → Prop} {v ws : List Word} {t u : Tree}
    {ts us : List Tree} (h : Commas P ws (t :: ts)) (hhead : ∀ ws, P ws t → Q (v ++ ws) u)
    (htail : ∀ ws, Commas P ws ts → Commas Q ws us) (hnil : us = [] ↔ ts = []) :
    Commas Q (v ++ ws) (u :: us) := by
  cases h with
  | last h =>
    rw [hnil.mpr rfl]
    exact .last (hhead _ h)
  | cons h hl hne hts =>
    rw [← List.append_assoc]
    exact .cons (hhead _ h) hl (mt hnil.mp hne) (htail _ hts)

namespace Rules

variable {page : Page} {es : List ParamEntry} {fs pending : List Tree} {vs ws : List Word}

/-- An entry of a parameter list of code is its name, if it has one, and its type. -/
theorem ParamEntry.spelt {e : ParamEntry} (h : Derives .code .entry ws e.field) :
    ∃ vs us, ws = vs ++ us ∧ Derives .code .paramType us e.type ∧
      (e.name = none ∧ vs = [] ∨ ∃ x, e.name = some x ∧ Derives .code .paramType vs x) := by
  obtain ⟨name, type⟩ := e
  change Derives .code .entry ws (.node .field [.nil, .list name.toList, type, .nil]) at h
  cases h with
  | cover hc => cases hc
  | node hr h =>
    obtain ⟨ts, heq, hts⟩ := h.spelt rfl
    cases heq
    cases hr with
    | entry =>
      obtain ⟨ts, h₁, ts, h₂, us, us', x, ts, rfl, h₃, hx, ts, h₄, rfl, -⟩ := hts
      cases h₁
      simp only [List.cons.injEq, Tree.list.injEq, Option.toList_eq_nil_iff] at h₂
      obtain ⟨rfl, rfl⟩ := h₂
      cases h₃
      exact ⟨[], us ++ [], rfl, by rwa [List.append_nil], .inl ⟨rfl, rfl⟩⟩
    | dotsEntry =>
      obtain ⟨ts, -, ts, -, us, us', x, ts, -, -, hx, -⟩ := hts
      exact absurd hx Derives.not_dots
    | namedEntry =>
      obtain ⟨ts, h₁, vs, vs', y, ts, rfl, h₂, hy, us, us', x, ts, rfl, h₃, hx, ts, h₄, rfl, -⟩ :=
        hts
      cases h₁
      obtain ⟨y, rfl, hname⟩ := hy.one_cases
      simp only [List.cons.injEq, Tree.list.injEq] at h₂
      obtain ⟨hsome, rfl⟩ := h₂
      cases h₃
      exact ⟨vs, us ++ [], rfl, by rwa [List.append_nil],
        .inr ⟨y, Option.toList_eq_singleton_iff.mp hsome, hname⟩⟩

/-- Names that share the type of a later entry, with a comma behind each. -/
def Await (ws : List Word) (pending : List Tree) : Prop :=
  pending = [] ∧ ws = [] ∨ ∃ vs l, ws = vs ++ [.lexeme l] ∧ l.token = .comma ∧ pending ≠ [] ∧
    Commas (Derives .code .paramType) vs pending

theorem Await.snoc {x : Tree} (h : Await vs pending) (hx : Derives .code .paramType ws x) :
    Commas (Derives .code .paramType) (vs ++ ws) (pending ++ [x]) := by
  rcases h with ⟨rfl, rfl⟩ | ⟨vs, l, rfl, hl, hne, hpending⟩
  · exact .last hx
  · rw [List.append_assoc, List.singleton_append]
    exact hpending.snoc hne hl hx

theorem eq_nil_of_namedFields (h : namedFields pending es = .ok fs)
    (hpending : pending = [] ∨ es ≠ []) :
    fs = [] ↔ es = [] := by
  fun_induction namedFields pending es generalizing fs with
  | case1 =>
    cases h
    exact iff_of_true rfl rfl
  | case2 => cases h
  | case3 pending name type es ih =>
    obtain ⟨gs, hgs, h⟩ := exists_of_bind_ok h
    cases h
    simp
  | case4 pending type es hkind ih =>
    obtain ⟨gs, hgs, h⟩ := exists_of_bind_ok h
    cases h
    simp
  | case5 pending type es _ _ ih =>
    cases es with
    | nil =>
      cases pending <;> cases h
    | cons e es =>
      have hiff := ih h (.inr (List.cons_ne_nil _ _))
      simp only [reduceCtorEq, iff_false] at hiff ⊢
      exact hiff
  | case6 => cases h

theorem commas_namedFields (h : namedFields pending es = .ok fs) (hpending : Await vs pending)
    (hes : Commas (Derives .code .entry) ws (es.map (·.field)))
    (hdots : ∀ e ∈ es, e.type.isKind .dots = false) : Commas (Spelling page) (vs ++ ws) fs := by
  fun_induction namedFields pending es generalizing fs vs ws with
  | case1 =>
    cases h
    cases hes
    rcases hpending with ⟨-, rfl⟩ | ⟨vs, l, rfl, hl, hne, hpending⟩
    · exact .nil
    · exact absurd rfl hne
  | case2 => cases h
  | case3 pending name type es ih =>
    obtain ⟨gs, hgs, h⟩ := exists_of_bind_ok h
    cases h
    refine hes.replace (fun ws hentry => ?_) (fun ws hes => ?_) ?_
    · obtain ⟨us, us', rfl, htype, ⟨hname, -⟩ | ⟨x, hname, hx⟩⟩ := ParamEntry.spelt hentry
      · cases hname
      · cases hname
        rw [← List.append_assoc]
        exact .param (hpending.snoc hx) htype
    · exact ih hgs (.inl ⟨rfl, rfl⟩) hes fun e he => hdots e (List.mem_cons_of_mem _ he)
    · rw [eq_nil_of_namedFields hgs (.inl rfl), List.map_eq_nil_iff]
  | case4 pending type es hkind ih =>
    rw [hdots _ List.mem_cons_self] at hkind
    cases hkind
  | case5 pending type es _ _ ih =>
    -- the entry is a name, which a later entry has the type of
    have hentry {ws : List Word} (h : Derives .code .entry ws (ParamEntry.field ⟨none, type⟩)) :
        Derives .code .paramType ws type := by
      obtain ⟨us, us', rfl, htype, ⟨-, rfl⟩ | ⟨x, hname, -⟩⟩ := ParamEntry.spelt h
      · exact htype
      · cases hname
    cases es with
    | nil =>
      cases pending <;> cases h
    | cons e es =>
      rw [List.map_cons] at hes
      cases hes with
      | @cons us ws l _ _ hfirst hl hne hes =>
        have hnext := ih h (.inr ⟨_, l, rfl, hl, by simp, hpending.snoc (hentry hfirst)⟩) hes
          fun e he => hdots e (List.mem_cons_of_mem _ he)
        simpa using hnext
  | case6 => cases h

theorem commas_fieldsOfEntries (h : fieldsOfEntries es = .ok fs)
    (hes : Commas (Derives .code .entry) ws (es.map (·.field)))
    (hdots : ∀ e ∈ es, e.type.isKind .dots = false) : Commas (Spelling page) ws fs := by
  unfold fieldsOfEntries at h
  split at h
  · have hnone : Await [] [] := .inl ⟨rfl, rfl⟩
    exact commas_namedFields h hnone hes hdots
  · rename_i hnone
    cases h
    -- no entry has a name
    clear hdots
    induction es generalizing ws with
    | nil =>
      cases hes
      exact .nil
    | cons e es ih =>
      simp only [List.any_cons, Bool.or_eq_true, not_or] at hnone
      refine Commas.replace (v := []) hes (fun ws hentry => ?_)
        (fun ws hes => ih hes hnone.2) (by simp)
      obtain ⟨us, us', rfl, htype, ⟨-, rfl⟩ | ⟨x, hname, -⟩⟩ := ParamEntry.spelt hentry
      · exact .param .nil htype
      · simp [hname] at hnone

end Rules

/-! ### Layouts with parts of their own -/

namespace Layout

open Spells

variable {page : Page} {read us vs ws : List Word} {s : Separator} {since : Option Nat}
  {l m : Lexeme}
  {t : Tree} {xs : List Tree} {is : List Item}

theorem spells_parameters {x y : Tree} (p : Tree) (hx : Derives .code .params vs x)
    (hy : Derives .code (.opt .results) ws y) (hs : since.all s.suits = true)
    (hrest : ∀ read, Spells page read .nothing (some 0) us is) :
    Spells page read s since (vs ++ (ws ++ us)) (signature ⟨.funcType, [p, x, y]⟩ ++ is) := by
  obtain ⟨k, fs, rfl, -⟩ := hx.exists_kind rfl
  rcases hy.opt_cases with ⟨rfl, rfl⟩ | hy
  · exact .phrase hx rfl hs (hrest _)
  · obtain ⟨k', fs', rfl, -⟩ := hy.exists_kind rfl
    exact .phrase hx rfl hs (.gap (.phrase hy rfl rfl (hrest _)))

/-- The type of a method, which goes without its keyword. -/
theorem spells_signature (h : Derives .code .signature ws t) :
    ∃ x y, t = .node .funcType [.pos .none, x, y] ∧
      ∀ {page read us s since is}, since.all s.suits = true →
      (∀ read, Spells page read .nothing (some 0) us is) →
        Spells page read s since (ws ++ us) (signature ⟨.funcType, [.pos .none, x, y]⟩ ++ is) := by
  cases h with
  | cover hc => cases hc
  | node hr h =>
    obtain ⟨ts, heq, hts⟩ := h.spelt rfl
    cases heq
    cases hr
    obtain ⟨ts, rfl, v, w, x, ts, rfl, rfl, hx, v', w', y, ts, rfl, rfl, hy, rfl, rfl⟩ := hts
    refine ⟨x, y, rfl, fun hs hrest => ?_⟩
    rw [List.append_nil, List.append_assoc]
    exact spells_parameters _ hx hy hs hrest

/-- A field list in parentheses. -/
theorem spells_paramList {es : List Rules.ParamEntry} (hl : l.token = .lparen)
    (hm : m.token = .rparen) (hes : Derives .code (.trailing .entry) ws (.list (es.map (·.field))))
    (hxs : Rules.fieldsOfEntries es = .ok xs)
    (hvs : vs = [] ∨ ∃ l, vs = [.lexeme l] ∧ l.token = .semicolon) (hvalid : l.pos.isValid = true)
    (hplaced : ∀ w ∈ ws, w.Placed) (hs : since.all s.suits = true) :
    Spells page read s since (.lexeme l :: (ws ++ (vs ++ [.lexeme m])))
      (paramList ⟨.fieldList, [.pos l.pos, .list xs, .pos m.pos]⟩) := by
  have hbare : isBareResult ⟨.fieldList, [.pos l.pos, .list xs, .pos m.pos]⟩ = false := by
    change (!l.pos.isValid && _) = false
    rw [hvalid]
    rfl
  have hlist : Node.list ⟨.fieldList, [.pos l.pos, .list xs, .pos m.pos]⟩ .list = xs := rfl
  obtain ⟨ts, us, trail, heq, rfl, hts, htrail⟩ := hes.trailing
  cases heq
  have hfields : Commas (Spelling page) us xs :=
    Rules.commas_fieldsOfEntries hxs hts (hes.isKind_dots_entry hplaced)
  simp only [paramList, hbare, hlist, Bool.false_eq_true, if_false, List.append_assoc]
  refine .mark hl rfl hs (.trailing hfields htrail fun _ n hn => .lineEnd hvs fun _ =>
    .mark hm rfl ?_ .nil)
  simpa [Separator.suits] using hn

theorem spells_block (indented : Bool) (hl : l.token = .lbrace) (hm : m.token = .rbrace)
    (hxs : Lines (Spelling page) ws xs) (hs : since.all s.suits = true) :
    Spells page read s since (.lexeme l :: (ws ++ [.lexeme m]))
      (block page indented ⟨.blockStmt, [.pos l.pos, .list xs, .pos m.pos]⟩) := by
  have hlist : Node.list ⟨.blockStmt, [.pos l.pos, .list xs, .pos m.pos]⟩ .list = xs := rfl
  have hclose (read : List Word) (s : Separator) (hs : s.suits 0 = true) :
      Spells page read s (some 0) [.lexeme m] [.token m.pos "\x7d"] := .mark hm rfl hs .nil
  simp only [block, hlist, List.append_assoc]
  refine .mark hl rfl hs ?_
  change Spells page _ _ _ _ (_ ++ [.token m.pos "\x7d"])
  split
  · rename_i hnil
    obtain rfl := List.isEmpty_iff.mp hnil
    split
    · exact .gap (noLines hxs fun read => hclose read .newline rfl)
    · exact noLines hxs fun read => hclose read .nothing rfl
  · cases indented with
    | true =>
      simp only [if_true]
      split
      · simp only [List.append_assoc, List.cons_append, List.nil_append]
        exact .shift (.inl rfl) (.gap (separated hxs rfl rfl fun _ _ _ =>
          .shift (.inr rfl) (.gap (hclose _ _ rfl))))
      · simp only [List.append_assoc, List.cons_append, List.nil_append]
        exact .shift (.inl rfl) (preceded hxs rfl fun _ _ _ =>
          .shift (.inr rfl) (.gap (hclose _ _ rfl)))
    | false =>
      simp only [Bool.false_eq_true, if_false]
      split
      · simp only [List.append_assoc, List.cons_append, List.nil_append]
        exact .gap (separated hxs rfl rfl fun _ _ _ => .gap (hclose _ _ rfl))
      · simp only [List.append_assoc, List.nil_append]
        exact preceded hxs rfl fun _ _ _ => .gap (hclose _ _ rfl)

theorem spells_bracedFields {q : Phrase} (hq : q = .structField ∨ q = .interfaceField)
    (h : Derives .code (.members q) ws t) :
    ∃ n : Node, t = n ∧ Spells page read .nothing (some 0) ws (bracedFields page (some n)) := by
  have hcopied := h
  cases h with
  | cover hc => cases hc
  | node hr h =>
    obtain ⟨ts, heq, hts⟩ := h.spelt rfl
    cases heq
    cases hr
    obtain ⟨l, w, ts, rfl, rfl, hl, v, w, x, ts, rfl, rfl, hx, m, w, ts, rfl, rfl, hm, rfl, rfl⟩ :=
      hts
    obtain ⟨xs, rfl, hxs⟩ := hx.lines rfl
    refine ⟨⟨.fieldList, _⟩, rfl, ?_⟩
    have hlist : Node.list ⟨.fieldList, [.pos l.pos, .list xs, .pos m.pos]⟩ .list = xs := rfl
    have hxs : Lines (Spelling page) v xs := hxs.imp fun _ _ h =>
      .phrase (by rcases hq with rfl | rfl <;> rfl) h
    simp only [bracedFields, hlist]
    split
    · rename_i hcopy
      exact .gap (last rfl (.copied (by rcases hq with rfl | rfl <;> rfl) hcopied hcopy))
    · split
      · rename_i hnil
        obtain rfl := List.isEmpty_iff.mp hnil
        exact .mark hl rfl rfl (noLines hxs fun _ => .mark hm rfl rfl .nil)
      · simp only [List.cons_append, List.nil_append]
        exact .gap (.mark hl rfl rfl (.shift (.inl rfl) (preceded hxs rfl fun _ _ _ =>
          .shift (.inr rfl) (.gap (.mark hm rfl rfl .nil)))))

theorem spells_switchBody {n : Node} (hn : n.get .body = t) (h : Derives .code .switchBody ws t)
    (hs : since.all s.suits = true) :
    Spells page read s since ws (switchBody page n) := by
  have hcopied := h
  cases h with
  | cover hc => cases hc
  | node hr h =>
    obtain ⟨ts, heq, hts⟩ := h.spelt rfl
    cases heq
    cases hr
    obtain ⟨l, w, ts, rfl, rfl, hl, v, w, x, ts, rfl, rfl, hx, m, w, ts, rfl, rfl, hm, rfl, rfl⟩ :=
      hts
    obtain ⟨xs, rfl, hxs⟩ := hx.lines rfl
    have hxs : Lines (Spelling page) v xs := hxs.imp fun _ _ h => .phrase rfl h
    have hbody : n.node? .body = some ⟨.blockStmt, [.pos l.pos, .list xs, .pos m.pos]⟩ := by
      rw [Node.node?, hn]
      rfl
    simp only [switchBody, hbody]
    split
    · rename_i hcopy
      exact last hs (.copied rfl hcopied hcopy)
    · exact spells_block false hl hm hxs hs

/-- The comment above a node. -/
theorem spells_doc {x : Tree} (h : Derives .code .doc vs x) (hplaced : ∀ w ∈ vs, w.Placed)
    (hws : Word.HasToken ws) (hs : since.all s.suits = true)
    (hrest : ∀ read s since, since.all s.suits = true → Spells page read s since ws is) :
    Spells page read s since (vs ++ ws) (Item.ifPresent x [.tree x, .gap .newline] ++ is) := by
  rcases h.doc_cases with ⟨rfl, rfl⟩ | ⟨g, rfl, rfl⟩
  · exact hrest _ _ _ hs
  · have hnil : g.tree.isNil = false := by
      obtain ⟨-, hkind, -⟩ := hplaced _ List.mem_cons_self
      cases ht : g.tree <;> rw [ht] at hkind <;> first | rfl | cases hkind
    rw [Item.ifPresent, hnil]
    exact .doc hs hws (.gap (hrest _ _ _ rfl))

/-- A function type that is laid out by itself has its keyword. -/
theorem isValid_func {q : Phrase} {fs : List Tree} (h : Derives .code q ws t) (hq : q.isLaid = true)
    (hplaced : ∀ w ∈ ws, w.Placed) (ht : t = .node .funcType fs) :
    (Node.posOf ⟨.funcType, fs⟩ .func).isValid = true := by
  induction h with
  | cover hc _ ih => exact ih (hc.isLaid (Phrase.isTokened_of_isLaid hq)) hplaced ht
  | node hr h =>
    cases ht
    cases hr with
    | signature => cases hq
    | func =>
      obtain ⟨ts, heq, l, ws, xs, rfl, rfl, -⟩ := h.spelt rfl
      cases heq
      exact hplaced _ List.mem_cons_self
  | ident | literal | dots | period => cases ht
  | _ => cases hq

/-- A tag behind the type of a field, or nothing. -/
theorem spells_tag (h : Derives .code (.opt .literal) ws t) :
    Spells page read .nothing (some 0) ws (Item.ifPresent t [.gap .space, .tree t]) := by
  rw [← List.append_nil ws, ← List.append_nil (Item.ifPresent _ _)]
  exact ifPresent h rfl .nil fun h => .gap (.phrase h rfl rfl .nil)

/-- A field with a type of its own. -/
theorem spells_field {q : Phrase} {d tag : Tree} {ds tags : List Word}
    (hd : Derives .code .doc ds d) (hxs : Commas (Spelling page) ws xs) (ht : Derives .code q vs t)
    (hq : q.isLaid = true) (htag : Derives .code (.opt .literal) tags tag)
    (hplaced : ∀ w ∈ ds ++ vs, w.Placed) (hs : since.all s.suits = true) :
    Spells page read s since (ds ++ (ws ++ (vs ++ tags)))
    (field ⟨.field, [d, .list xs, t, tag]⟩) := by
  obtain ⟨k, fs, rfl, -⟩ := ht.exists_kind (Phrase.isNode_of_isLaid hq)
  obtain ⟨hdoc, htype⟩ := List.forall_mem_append.mp hplaced
  have hplain : (k = .funcType && !(Node.posOf ⟨k, fs⟩ .func).isValid && !xs.isEmpty) = false := by
    by_cases hk : k = .funcType
    · subst hk
      rw [isValid_func ht hq htype rfl]
      simp
    · simp [hk]
  have hnames : Node.list ⟨.field, [d, .list xs, .node k fs, tag]⟩ .names = xs := rfl
  have hget : Node.get ⟨.field, [d, .list xs, .node k fs, tag]⟩ .type = .node k fs := rfl
  have hrest (read : List Word) (s : Separator) (since : Option Nat)
      (hs : since.all s.suits = true) :
      Spells page read s since (vs ++ tags)
      (.tree (.node k fs) :: Item.ifPresent tag [.gap .space, .tree tag]) :=
    .phrase ht hq hs (spells_tag htag)
  simp only [field, hget, Tree.node?, hplain, hnames, List.append_assoc]
  refine spells_doc hd hdoc ?_ hs fun read s since hs => ?_
  · exact .right (.left (ht.hasToken (Phrase.isTokened_of_isLaid hq)))
  · by_cases hne : xs = []
    · subst hne
      cases hxs with
      | nil => exact hrest _ _ _ hs
    · rw [if_neg Bool.false_ne_true, if_neg (by simpa using hne)]
      exact .commas hxs hne hs fun _ => .gap (hrest _ _ _ rfl)

/-- A method. -/
theorem spells_method {d x : Tree} {ds : List Word} (hd : Derives .code .doc ds d)
    (hx : Derives .code .ident ws x) (ht : Derives .code .signature vs t)
    (hplaced : ∀ w ∈ ds, w.Placed) (hs : since.all s.suits = true) :
    Spells page read s since (ds ++ (ws ++ vs)) (field ⟨.field, [d, .list [x], t, .nil]⟩) := by
  simp only [field, List.append_assoc]
  refine spells_doc hd hplaced ?_ hs fun read s since hs => ?_
  · exact .left (hx.hasToken rfl)
  · obtain ⟨a, b, rfl, hsig⟩ := spells_signature ht
    have hlast : Spells page (read ++ ws) .nothing (some 0) (vs ++ []) _ := hsig rfl fun _ => .nil
    rw [List.append_nil] at hlast
    exact .phrase hx rfl hs hlast

/-- What stands behind the body of a condition. -/
theorem spells_else (h : Derives .code (.opt (.behind .kwElse .elseBody)) ws t) :
    Spells page read .nothing (some 0) (ws ++ [])
      (Item.ifPresent t [.gap .space, .bare "else", .gap .space, .tree t]) := by
  rcases h.opt_cases with ⟨rfl, rfl⟩ | h
  · exact .nil
  · obtain ⟨l, vs, rfl, hl, h⟩ := h.behind_cases
    rw [Item.ifPresent, h.isNil_of_isLaid rfl, List.append_nil]
    exact .gap (.word hl rfl (.gap (last rfl (.phrase rfl h))))

/-- The tag and the body of a switch. -/
theorem spells_tagged {n : Node} {x y : Tree} (hn : n.get .body = y)
    (hx : Derives .code (.opt .expr) vs x) (hy : Derives .code .switchBody ws y) :
    Spells page read s (some 0) (vs ++ (ws ++ []))
      (Item.ifPresent x [.gap .space, .tree x] ++ .gap .space :: switchBody page n) := by
  rw [List.append_nil]
  refine .ifPresent hx rfl (.gap (spells_switchBody hn hy rfl)) fun hx =>
    .gap (.phrase hx rfl rfl ?_)
  exact .gap (spells_switchBody hn hy rfl)

/-- The statements of a clause. -/
theorem spells_body (h : Lines (Spelling page) ws xs) :
    Spells page read .nothing (some 0) (ws ++ []) (Item.preceded .newline xs ++ [.shallower]) :=
  .preceded h rfl fun _ _ hs => .shift (.inr rfl) (by rcases hs with rfl | rfl <;> exact .nil)

/-- The targets of a loop: the third and those behind it are left out. -/
theorem spells_targets (h : Commas (Derives .code .expr) ws xs) (hne : xs ≠ [])
    (hs : since.all s.suits = true)
    (hrest : ∀ read since, since.all (Separator.suits .space) = true →
      Spells page read .nothing since us is) :
    Spells page read s since (ws ++ us) (.tree (xs[0]?.getD .nil) ::
      (Item.ifPresent (xs[1]?.getD .nil) [.gap .comma, .tree (xs[1]?.getD .nil)] ++ is)) := by
  cases h with
  | nil => exact absurd rfl hne
  | last hkey => exact .phrase hkey rfl hs (hrest _ _ rfl)
  | @cons _ _ _ key _ hkey hc htail hxs =>
    cases hxs with
    | nil => exact absurd rfl htail
    | @last _ value hvalue =>
      change Spells
        page _ _ _ _ (.tree key :: (Item.ifPresent value [.gap .comma, .tree value] ++ is))
      rw [Item.ifPresent, hvalue.isNil_of_isLaid rfl, List.append_assoc]
      exact .phrase hkey rfl hs (.comma hc (.gap (.phrase hvalue rfl rfl (hrest _ _ rfl))))
    | @cons _ _ _ value _ hvalue hc' htail' hxs =>
      change Spells
        page _ _ _ _ (.tree key :: (Item.ifPresent value [.gap .comma, .tree value] ++ is))
      rw [Item.ifPresent, hvalue.isNil_of_isLaid rfl]
      simp only [List.append_assoc, List.cons_append]
      refine .phrase hkey rfl hs (.comma hc (.gap (.phrase hvalue rfl rfl (.comma hc' ?_))))
      exact .unread (hxs.hasToken rfl htail') (hrest _ _ rfl)

end Layout

/-! ### The rows -/

theorem Derives.commas_spelling {q : Phrase} {ws : List Word} {t : Tree}
    (h : Derives .code (.more q) ws t) (hq : q.isLaid = true) (page : Page) : ∃ ts, t = .list ts ∧
      ts ≠ [] ∧ Commas (Spelling page) ws ts := by
  obtain ⟨ts, rfl, hne, hts⟩ := h.commas
  exact ⟨ts, rfl, hne, hts.imp fun _ _ => .phrase hq⟩

theorem Derives.lines_spelling {q : Phrase} {ws : List Word} {t : Tree}
    (h : Derives .code (.lines q) ws t) (hq : q.isLaid = true) (page : Page) : ∃ ts, t = .list ts ∧
      Lines (Spelling page) ws ts := by
  obtain ⟨ts, rfl, hts⟩ := h.lines rfl
  exact ⟨ts, rfl, hts.imp fun _ _ => .phrase hq⟩

theorem Token.declarers_fixed {kw : Token} (h : kw ∈ declarers) :
    [kw].all (fun tok => !(tok.carriesText || tok.isLoose)) = true := by
  simp only [declarers, List.mem_cons, List.not_mem_nil, or_false] at h
  rcases h with rfl | rfl | rfl | rfl <;> rfl

namespace Row

variable {page : Page} {q : Phrase} {k : Kind} {ps : List Part} {read ws : List Word}
  {ts : List Tree}
  {s : Separator} {since : Option Nat}

open Layout Spells in
theorem spells_types (h : Row q k ps) (hk : k.chapter = .types) (hq : q.isLaid = true)
    (hts : Part.Spelt ps ws ts) (hplaced : ∀ w ∈ ws, w.Placed) (hs : since.all s.suits = true) :
    Spells page read s since ws (items page ⟨k, ts⟩) := by
  cases h with
  | variadic =>
    obtain ⟨l, ws, ts, rfl, rfl, hl, v, ws, x, ts, rfl, rfl, hx, rfl, rfl⟩ := hts
    exact .mark hl rfl hs (.phrase hx rfl rfl .nil)
  | array =>
    obtain ⟨l, ws, ts, rfl, rfl, hl, v, ws, x, ts, rfl, rfl, hx, m, ws, rfl, hm, u, ws, y, ts,
      rfl, rfl, hy, rfl, rfl⟩ := hts
    exact .mark hl rfl hs (.opt hx rfl rfl fun _ _ _ _ => .word hm rfl (.phrase hy rfl rfl .nil))
  | openArray =>
    obtain ⟨l, ws, ts, rfl, rfl, hl, ts, rfl, rfl, rfl⟩ := hts
    exact .mark hl rfl hs (.absent .nil)
  | map =>
    obtain ⟨l, ws, ts, rfl, rfl, hl, m, ws, rfl, hm, v, ws, x, ts, rfl, rfl, hx, n, ws, rfl, hn, u,
      ws, y, ts, rfl, rfl, hy, rfl, rfl⟩ := hts
    exact .mark hl rfl hs
      (.word hm rfl (.phrase hx rfl rfl (.word hn rfl (.phrase hy rfl rfl .nil))))
  | struct =>
    obtain ⟨l, ws, ts, rfl, rfl, hl, v, ws, x, ts, rfl, rfl, hx, rfl, rfl⟩ := hts
    obtain ⟨n, rfl, hn⟩ := spells_bracedFields (.inl rfl) hx
    exact .mark hl rfl hs (by rw [List.append_nil]; exact hn)
  | interface =>
    obtain ⟨l, ws, ts, rfl, rfl, hl, v, ws, x, ts, rfl, rfl, hx, rfl, rfl⟩ := hts
    obtain ⟨n, rfl, hn⟩ := spells_bracedFields (.inr rfl) hx
    exact .mark hl rfl hs (by rw [List.append_nil]; exact hn)
  | func =>
    obtain ⟨l, ws, ts, rfl, rfl, hl, v, ws, x, ts, rfl, rfl, hx, u, ws, y, ts, rfl, rfl, hy,
        rfl, rfl⟩ := hts
    have hsig : Spells page (read ++ [.lexeme l]) .nothing (some 0) _ _ :=
      spells_parameters (.pos l.pos) hx hy rfl fun _ => .nil
    rw [List.append_nil (Layout.signature _)] at hsig
    exact .mark hl rfl hs hsig
  | signature => cases hq
  | params =>
    obtain ⟨l, ws, ts, rfl, rfl, hl, v, ws, es, ys, ts, rfl, rfl, hes, hys, e, ws, rfl, he, m, ws,
      ts, rfl, rfl, hm, rfl, rfl⟩ := hts
    simp only [List.forall_mem_cons, List.forall_mem_append] at hplaced
    exact spells_paramList hl hm hes hys he hplaced.1 hplaced.2.1 hs
  | bareResult =>
    obtain ⟨ts, rfl, v, ws, x, ts, rfl, rfl, hx, ts, rfl, rfl, rfl⟩ := hts
    obtain ⟨x, rfl, hfield⟩ := hx.one_cases
    obtain ⟨d, type, tag, rfl⟩ : ∃ d type tag, x = .node .field [d, .list [], type, tag] := by
      cases hfield with
      | cover hc => cases hc
      | node hr h =>
        cases hr
        obtain ⟨ts, heq, ts, rfl, ts, rfl, v, ws, y, ts, rfl, rfl, -, ts, rfl, rfl, rfl⟩ :=
          h.spelt rfl
        cases heq
        exact ⟨_, _, _, rfl⟩
    rw [List.append_nil]
    exact last hs (.phrase rfl hfield)
  | bareField =>
    obtain ⟨ts, rfl, ts, rfl, v, ws, x, ts, rfl, rfl, hx, ts, rfl, rfl, rfl⟩ := hts
    exact spells_field .noDoc .nil hx rfl (.none _) (by simpa using hplaced) hs
  | entry | dotsEntry | namedEntry | members => cases hq
  | dotsMember =>
    obtain ⟨ts, rfl, ts, rfl, v, ws, x, ts, rfl, rfl, hx, -⟩ := hts
    exact absurd hx Derives.not_dots
  | embedded =>
    obtain ⟨v, ws, x, ts, rfl, rfl, hx, ts, rfl, u, ws, y, ts, rfl, rfl, hy, w, ws, z, ts, rfl, rfl,
        hz, rfl, rfl⟩ :=
      hts
    simp only [List.forall_mem_append] at hplaced
    rw [List.append_nil]
    exact spells_field hx .nil hy rfl hz (List.forall_mem_append.mpr ⟨hplaced.1, hplaced.2.1⟩) hs
  | embeddedType =>
    obtain ⟨v, ws, x, ts, rfl, rfl, hx, ts, rfl, u, ws, y, ts, rfl, rfl, hy, ts, rfl, rfl, rfl⟩ :=
      hts
    simp only [List.forall_mem_append] at hplaced
    exact spells_field hx .nil hy rfl (.none _)
      (List.forall_mem_append.mpr ⟨hplaced.1, hplaced.2.1⟩) hs
  | named =>
    obtain ⟨v, ws, x, ts, rfl, rfl, hx, n, ws, names, ts, rfl, rfl, hn, u, ws, y, ts, rfl, rfl, hy,
      w, ws, z, ts, rfl, rfl, hz, rfl, rfl⟩ := hts
    obtain ⟨names, rfl, -, hnames⟩ := hn.fieldNames rfl
    simp only [List.forall_mem_append] at hplaced
    rw [List.append_nil]
    exact spells_field hx (hnames.imp fun _ _ h => h.elim (.phrase rfl) (.phrase rfl)) hy rfl hz
      (List.forall_mem_append.mpr ⟨hplaced.1, hplaced.2.2.1⟩) hs
  | method =>
    obtain ⟨v, ws, x, ts, rfl, rfl, hx, n, ws, names, ts, rfl, rfl, hn, u, ws, y, ts, rfl, rfl,
      hy, ts, rfl, rfl, rfl⟩ := hts
    obtain ⟨name, rfl, hname⟩ := hn.one_cases
    rw [List.append_nil]
    exact spells_method hx hname hy (List.forall_mem_append.mp hplaced).1 hs
  | _ => cases hk

open Layout Spells in
theorem spells_expressions (h : Row q k ps) (hk : k.chapter = .expressions)
    (hts : Part.Spelt ps ws ts) (hws : Word.Distinct ws) (hplaced : ∀ w ∈ ws, w.Placed)
    (hs : since.all s.suits = true) : Spells page read s since ws (items page ⟨k, ts⟩) := by
  cases h with
  | qualified | selector =>
    obtain ⟨v, ws, x, ts, rfl, rfl, hx, l, ws, rfl, hl, u, ws, y, ts, rfl, rfl, hy, rfl, rfl⟩ := hts
    exact .phrase hx rfl hs (.word hl rfl (.phrase hy rfl rfl .nil))
  | pointer | deref =>
    obtain ⟨l, ws, ts, rfl, rfl, hl, v, ws, x, ts, rfl, rfl, hx, rfl, rfl⟩ := hts
    exact .mark hl rfl hs (.phrase hx rfl rfl .nil)
  | parenType =>
    obtain ⟨l, ws, ts, rfl, rfl, hl, v, ws, x, ts, rfl, rfl, hx, m, ws, ts, rfl, rfl, hm,
        rfl, rfl⟩ := hts
    exact .mark hl rfl hs (.phrase hx rfl rfl (.mark hm rfl rfl .nil))
  | paren =>
    obtain ⟨l, ws, ts, rfl, rfl, hl, v, ws, x, ts, rfl, rfl, hx, e, ws, rfl, he, m, ws, ts, rfl,
        rfl, hm, rfl, rfl⟩ :=
      hts
    exact .mark hl rfl hs (.phrase hx rfl rfl (.lineEnd he fun _ => .mark hm rfl rfl .nil))
  | funcLit =>
    obtain ⟨v, ws, x, ts, rfl, rfl, hx, u, ws, y, ts, rfl, rfl, hy, rfl, rfl⟩ := hts
    exact .phrase hx rfl hs (.gap (.phrase hy rfl rfl .nil))
  | typeAssert =>
    obtain ⟨v, ws, x, ts, rfl, rfl, hx, p, ws, rfl, hp, l, ws, ts, rfl, rfl, hl, u, ws, y, ts, rfl,
      rfl, hy, m, ws, ts, rfl, rfl, hm, rfl, rfl⟩ := hts
    exact .phrase hx rfl hs
      (.word hp rfl (.mark hl rfl rfl (.phrase hy rfl rfl (.mark hm rfl rfl .nil))))
  | index =>
    obtain ⟨v, ws, x, ts, rfl, rfl, hx, l, ws, ts, rfl, rfl, hl, u, ws, y, ts, rfl, rfl, hy, m, ws,
      ts, rfl, rfl, hm, rfl, rfl⟩ := hts
    exact .phrase hx rfl hs (.mark hl rfl rfl (.phrase hy rfl rfl (.mark hm rfl rfl .nil)))
  | slice =>
    obtain ⟨v, ws, x, ts, rfl, rfl, hx, l, ws, ts, rfl, rfl, hl, u, ws, y, ts, rfl, rfl, hy, c, ws,
      rfl, hc, w, ws, z, ts, rfl, rfl, hz, m, ws, ts, rfl, rfl, hm, rfl, rfl⟩ := hts
    refine .phrase hx rfl hs (.mark hl rfl rfl (.opt hy rfl rfl fun _ _ _ _ => .word hc rfl ?_))
    exact .opt hz rfl rfl fun _ _ _ hs => .mark hm rfl hs .nil
  | call =>
    obtain ⟨v, ws, x, ts, rfl, rfl, hx, l, ws, ts, rfl, rfl, hl, u, ws, ys, p, ts, rfl, rfl, hys,
      hspread, e, ws, rfl, he, m, ws, ts, rfl, rfl, hm, rfl, rfl⟩ := hts
    simp only [List.forall_mem_cons, List.forall_mem_append] at hplaced
    simp only [items, List.append_assoc]
    refine .phrase hx rfl hs (.mark hl rfl rfl ?_)
    exact arguments hys hspread hws.right.tail.left hplaced.2.2.1
      fun _ _ hs => .lineEnd he fun _ => .mark hm rfl hs .nil
  | composite =>
    obtain ⟨v, ws, x, ts, rfl, rfl, hx, l, ws, ts, rfl, rfl, hl, u, ws, y, ts, rfl, rfl, hy, e, ws,
      rfl, he, m, ws, ts, rfl, rfl, hm, rfl, rfl⟩ := hts
    obtain ⟨xs, us, trail, rfl, rfl, hxs, htrail⟩ := hy.trailing
    simp only [items, List.append_assoc]
    refine .phrase hx rfl hs (.mark hl rfl rfl ?_)
    exact trailing (hxs.imp fun _ _ => .phrase rfl) htrail fun _ n hn => .lineEnd he fun _ =>
      .mark hm rfl (by simpa [Separator.suits] using hn) .nil
  | bareLit =>
    obtain ⟨ts, rfl, l, ws, ts, rfl, rfl, hl, u, ws, y, ts, rfl, rfl, hy, e, ws, rfl, he, m, ws, ts,
      rfl, rfl, hm, rfl, rfl⟩ := hts
    obtain ⟨xs, us, trail, rfl, rfl, hxs, htrail⟩ := hy.trailing
    simp only [items, List.append_assoc]
    refine .absent (.mark hl rfl hs ?_)
    exact trailing (hxs.imp fun _ _ => .phrase rfl) htrail fun _ n hn => .lineEnd he fun _ =>
      .mark hm rfl (by simpa [Separator.suits] using hn) .nil
  | keyValue =>
    obtain ⟨v, ws, x, ts, rfl, rfl, hx, l, ws, ts, rfl, rfl, hl, u, ws, y, ts, rfl, rfl, hy,
        rfl, rfl⟩ := hts
    exact .phrase hx rfl hs (.mark hl rfl rfl (.gap (.phrase hy rfl rfl .nil)))
  | prefixed =>
    obtain ⟨l, ws, ts, rfl, rfl, hl, v, ws, x, ts, rfl, rfl, hx, rfl, rfl⟩ := hts
    exact .markIn hl (by decide) hs (.phrase hx rfl rfl .nil)
  | binary hn hop =>
    obtain ⟨v, ws, x, ts, rfl, rfl, hx, l, ws, ts, rfl, rfl, hl, u, ws, y, ts, rfl, rfl, hy,
        rfl, rfl⟩ := hts
    have hfixed {tok : Token} (h : 0 < tok.precedence) : (!(tok.carriesText || tok.isLoose)) =
        true := by
      cases tok <;> first | rfl | cases h
    exact .phrase hx rfl hs
      (.gap (.markIn hl (by simpa using hfixed hop) rfl (.gap (.phrase hy rfl rfl .nil))))
  | _ => cases hk

open Layout Spells in
theorem spells_declarations (h : Row q k ps) (hk : k.chapter = .declarations)
    (hts : Part.Spelt ps ws ts) (hplaced : ∀ w ∈ ws, w.Placed) (hs : since.all s.suits = true) :
    Spells page read s since ws (items page ⟨k, ts⟩) := by
  cases h with
  | importSpec =>
    obtain ⟨v, ws, x, ts, rfl, rfl, hx, u, ws, y, ts, rfl, rfl, hy, w, ws, z, ts, rfl, rfl, hz,
        rfl, rfl⟩ := hts
    simp only [List.forall_mem_append] at hplaced
    simp only [items, List.append_assoc]
    refine spells_doc hx hplaced.1 ?_ hs fun read s since hs => ?_
    · exact .right (.left (hz.hasToken rfl))
    · refine .ifPresent hy rfl (.phrase hz rfl hs .nil) fun hy => ?_
      exact .phrase hy rfl hs (.gap (.phrase hz rfl rfl .nil))
  | typeSpec =>
    obtain ⟨v, ws, x, ts, rfl, rfl, hx, u, ws, y, ts, rfl, rfl, hy, ts, rfl, w, ws, z, ts, rfl, rfl,
        hz, rfl, rfl⟩ := hts
    simp only [List.forall_mem_append] at hplaced
    simp only [items, List.append_assoc]
    refine spells_doc hx hplaced.1 ?_ hs fun read s since hs => ?_
    · exact .left (hy.hasToken rfl)
    · exact .phrase hy rfl hs (.gap (.phrase hz rfl rfl .nil))
  | aliasSpec =>
    obtain ⟨v, ws, x, ts, rfl, rfl, hx, u, ws, y, ts, rfl, rfl, hy, l, ws, ts, rfl, rfl, hl, w, ws,
      z, ts, rfl, rfl, hz, rfl, rfl⟩ := hts
    simp only [List.forall_mem_append, List.forall_mem_cons] at hplaced
    have hvalid : (Node.posOf ⟨.typeSpec, [x, y, .pos l.pos, z]⟩ .assign).isValid = true :=
      hplaced.2.2.1
    simp only [items, List.append_assoc, hvalid]
    refine spells_doc hx hplaced.1 ?_ hs fun read s since hs => ?_
    · exact .right (.head (by rw [hl]; rfl))
    · exact .phrase hy rfl hs (.gap (.mark hl rfl rfl (.gap (.phrase hz rfl rfl .nil))))
  | valueSpec hkw =>
    obtain ⟨v, ws, x, ts, rfl, rfl, hx, u, ws, y, ts, rfl, rfl, hy, w, ws, z, ts, rfl, rfl, hz, w',
      ws, t, ts, rfl, rfl, ht, rfl, rfl⟩ := hts
    have hvalues (read : List Word) : Spells page read .nothing (some 0) (w' ++ [])
        (if t.items.isEmpty then [] else [.gap .space, .bare "=", .gap .space] ++ Item.separated
          .comma t.items) := by
      rw [List.append_nil]
      rcases ht.orEmpty_cases with ⟨rfl, rfl⟩ | ht
      · exact .nil
      · obtain ⟨l, vs, rfl, hl, ht⟩ := ht.behind_cases
        obtain ⟨ts, rfl, hne, hts⟩ := ht.commas_spelling rfl page
        rw [if_neg (by simpa [Tree.items] using hne)]
        exact .gap (.word hl rfl (.gap (lastCommas hts hne rfl)))
    have htoken := hy.hasToken rfl
    obtain ⟨names, rfl, hne, hnames⟩ := hy.commas_spelling rfl page
    simp only [List.forall_mem_append] at hplaced
    simp only [items, List.append_assoc]
    refine spells_doc hx hplaced.1 ?_ hs fun read s since hs => ?_
    · exact .left htoken
    · exact .commas hnames hne hs fun _ => .ifPresent hz rfl (hvalues _) fun hz =>
        .gap (.phrase hz rfl rfl (hvalues _))
  | group hkw =>
    obtain ⟨v, ws, x, ts, rfl, rfl, hx, l, ws, ts, rfl, rfl, hl, m, ws, ts, rfl, rfl, hm, u, ws, y,
      ts, rfl, rfl, hy, n, ws, ts, rfl, rfl, hn, rfl, rfl⟩ := hts
    obtain ⟨xs, rfl, hxs⟩ := hy.lines_spelling rfl page
    simp only [List.forall_mem_append, List.forall_mem_cons] at hplaced
    have hvalid :
        (Node.posOf ⟨.genDecl, [x, .pos l.pos, .tok l.token, .pos m.pos, .list xs, .pos n.pos]⟩
        .lparen).isValid = true := hplaced.2.2.1
    simp only [items, specs, hvalid, Bool.true_or, if_true, List.append_assoc]
    refine spells_doc hx hplaced.1 ?_ hs fun read s since hs => ?_
    · exact .tail (.head (by rw [hm]; rfl))
    · refine .markIn hl (Token.declarers_fixed hkw) hs
        (.gap (.mark hm rfl rfl (.shift (.inl rfl) ?_)))
      exact .preceded hxs rfl fun _ _ _ => .shift (.inr rfl)
        (.gap (.mark hn rfl (by split <;> rfl) .nil))
  | single hkw =>
    obtain ⟨v, ws, x, ts, rfl, rfl, hx, l, ws, ts, rfl, rfl, hl, ts, rfl, u, ws, y, ts, rfl, rfl,
      hy, ts, rfl, rfl, rfl⟩ := hts
    obtain ⟨y, rfl, hspec⟩ := hy.one_cases
    simp only [List.forall_mem_append, List.forall_mem_cons] at hplaced
    simp only [items, List.append_assoc]
    refine spells_doc hx hplaced.1 ?_ hs fun read s since hs => ?_
    · exact .tail (.left (hspec.hasToken rfl))
    · exact .markIn hl (Token.declarers_fixed hkw) hs (.gap (.phrase hspec rfl rfl .nil))
  | funcDecl =>
    obtain ⟨v, ws, x, ts, rfl, rfl, hx, l, ws, ts, rfl, rfl, hl, u, ws, y, ts, rfl, rfl, hy, w, ws,
      z, ts, rfl, rfl, hz, w', ws, t, ts, rfl, rfl, ht, u', ws, b, ts, rfl, rfl, hb, rfl, rfl⟩ :=
      hts
    simp only [List.forall_mem_append, List.forall_mem_cons] at hplaced
    have hbody (read : List Word) : Spells page read .nothing (some 0) (u' ++ [])
        (Item.ifPresent b [.gap .space, .tree b]) := by
      rw [← List.append_nil (Item.ifPresent _ _)]
      exact .ifPresent hb rfl .nil fun hb => .gap (.phrase hb rfl rfl .nil)
    simp only [items, List.append_assoc]
    refine spells_doc hx hplaced.1 (.head (by rw [hl]; rfl)) hs fun read s since hs => ?_
    refine .mark hl rfl hs (.gap ?_)
    rcases hy.opt_cases with ⟨rfl, rfl⟩ | hy
    · obtain ⟨a, c, rfl, hsig⟩ := spells_signature ht
      rw [List.nil_append]
      change Spells page _ _ _ _ (.tree z :: (Layout.signature _ ++ Item.ifPresent b
        [.gap .space, .tree b]))
      exact .phrase hz rfl rfl (hsig rfl hbody)
    · obtain ⟨k, fs, rfl, -⟩ := hy.exists_kind rfl
      obtain ⟨a, c, rfl, hsig⟩ := spells_signature ht
      exact .phrase hy rfl rfl (.gap (.phrase hz rfl rfl (hsig rfl hbody)))
  | _ => cases hk

open Layout Spells in
theorem spells_statements (h : Row q k ps) (hk : k.chapter = .statements) (hq : q.isLaid = true)
    (hts : Part.Spelt ps ws ts) (hs : since.all s.suits = true) :
    Spells page read s since ws (items page ⟨k, ts⟩) := by
  cases h with
  | switchBody => cases hq
  | exprStmt | declStmt =>
    obtain ⟨v, ws, x, ts, rfl, rfl, hx, rfl, rfl⟩ := hts
    exact .phrase hx rfl hs .nil
  | assign =>
    obtain ⟨v, ws, x, ts, rfl, rfl, hx, l, ws, ts, rfl, rfl, hl, u, ws, y, ts, rfl, rfl, hy,
        rfl, rfl⟩ := hts
    obtain ⟨xs, rfl, hne, hxs⟩ := hx.commas_spelling rfl page
    obtain ⟨ys, rfl, hne', hys⟩ := hy.commas_spelling rfl page
    simp only [items, List.append_assoc]
    rw [List.append_nil]
    exact .commas hxs hne hs fun _ =>
      .gap (.markIn hl (by decide) rfl (.gap (lastCommas hys hne' rfl)))
  | incDec =>
    obtain ⟨v, ws, x, ts, rfl, rfl, hx, l, ws, ts, rfl, rfl, hl, rfl, rfl⟩ := hts
    exact .phrase hx rfl hs (.markIn hl (by decide) rfl .nil)
  | goStmt | deferStmt =>
    obtain ⟨l, ws, ts, rfl, rfl, hl, v, ws, x, ts, rfl, rfl, hx, rfl, rfl⟩ := hts
    exact .mark hl rfl hs (.gap (.phrase hx rfl rfl .nil))
  | returnStmt =>
    obtain ⟨l, ws, ts, rfl, rfl, hl, v, ws, x, ts, rfl, rfl, hx, rfl, rfl⟩ := hts
    rw [List.append_nil]
    refine .mark hl rfl hs ?_
    rcases hx.orEmpty_cases with ⟨rfl, rfl⟩ | hx
    · exact .nil
    · obtain ⟨xs, rfl, hne, hxs⟩ := hx.commas_spelling rfl page
      change Spells page _ _ _ _ (if xs.isEmpty = true then [] else _)
      rw [if_neg (by simpa using hne)]
      exact .gap (lastCommas hxs hne rfl)
  | branchStmt =>
    obtain ⟨l, ws, ts, rfl, rfl, hl, v, ws, x, ts, rfl, rfl, hx, rfl, rfl⟩ := hts
    refine .markIn hl (by decide) hs ?_
    rw [← List.append_nil (Item.ifPresent _ _)]
    exact .ifPresent hx rfl .nil fun hx => .gap (.phrase hx rfl rfl .nil)
  | block =>
    obtain ⟨l, ws, ts, rfl, rfl, hl, v, ws, x, ts, rfl, rfl, hx, m, ws, ts, rfl, rfl, hm,
        rfl, rfl⟩ := hts
    obtain ⟨xs, rfl, hxs⟩ := hx.lines_spelling rfl page
    exact spells_block true hl hm hxs hs
  | _ => cases hk

open Layout Spells in
theorem spells_control (h : Row q k ps) (hk : k.chapter = .control) (hts : Part.Spelt ps ws ts)
    (hs : since.all s.suits = true) : Spells page read s since ws (items page ⟨k, ts⟩) := by
  cases h with
  | ifStmt =>
    obtain ⟨l, ws, ts, rfl, rfl, hl, ts, rfl, v, ws, x, ts, rfl, rfl, hx, u, ws, y, ts, rfl, rfl,
      hy, w, ws, z, ts, rfl, rfl, hz, rfl, rfl⟩ := hts
    simp only [items, List.append_assoc]
    exact .mark hl rfl hs (.gap (.phrase hx rfl rfl (.gap (.phrase hy rfl rfl (spells_else hz)))))
  | ifInit =>
    obtain ⟨l, ws, ts, rfl, rfl, hl, i, ws, a, ts, rfl, rfl, ha, m, ws, rfl, hm, v, ws, x, ts, rfl,
      rfl, hx, u, ws, y, ts, rfl, rfl, hy, w, ws, z, ts, rfl, rfl, hz, rfl, rfl⟩ := hts
    have hrest (read : List Word) (s : Separator) (hs : s.suits 0 = true) :
        Spells page read s (some 0) (.lexeme m :: (v ++ (u ++ (w ++ []))))
        (.tree x :: .gap .space :: .tree y ::
          Item.ifPresent z [.gap .space, .bare "else", .gap .space, .tree z]) :=
      .semicolon hm (.phrase hx rfl hs (.gap (.phrase hy rfl rfl (spells_else hz))))
    simp only [items, List.append_assoc]
    refine .mark hl rfl hs (.gap (.ifPresent ha rfl (hrest _ _ rfl) fun ha => ?_))
    exact .phrase ha rfl rfl (.gap (hrest _ _ rfl))
  | switch =>
    obtain ⟨l, ws, ts, rfl, rfl, hl, ts, rfl, v, ws, x, ts, rfl, rfl, hx, u, ws, y, ts, rfl, rfl,
        hy, rfl, rfl⟩ := hts
    simp only [items, List.append_assoc]
    exact .mark hl rfl hs (spells_tagged rfl hx hy)
  | switchInit =>
    obtain ⟨l, ws, ts, rfl, rfl, hl, i, ws, a, ts, rfl, rfl, ha, m, ws, rfl, hm, v, ws, x, ts, rfl,
      rfl, hx, u, ws, y, ts, rfl, rfl, hy, rfl, rfl⟩ := hts
    simp only [items, List.append_assoc]
    refine .mark hl rfl hs (.ifPresent ha rfl (.semicolon hm (spells_tagged rfl hx hy)) fun ha =>
      ?_)
    exact .gap (.phrase ha rfl rfl (.gap (.semicolon hm (spells_tagged rfl hx hy))))
  | case =>
    obtain ⟨l, ws, ts, rfl, rfl, hl, v, ws, x, ts, rfl, rfl, hx, m, ws, ts, rfl, rfl, hm, u, ws, y,
      ts, rfl, rfl, hy, rfl, rfl⟩ := hts
    obtain ⟨xs, rfl, hne, hxs⟩ := hx.commas_spelling rfl page
    obtain ⟨ys, rfl, hys⟩ := hy.lines_spelling rfl page
    have hempty :
        (Node.list ⟨.caseClause, [.pos l.pos, .tok l.token, .list xs, .pos m.pos, .list ys]⟩
          .list).isEmpty
        = false := List.isEmpty_eq_false_iff.mpr hne
    simp only [items, List.append_assoc, hempty]
    refine .markIn hl (by decide) hs
      (.gap (.commas hxs hne rfl fun _ => .mark hm rfl rfl (.shift (.inl rfl) ?_)))
    exact spells_body hys
  | default =>
    obtain ⟨l, ws, ts, rfl, rfl, hl, ts, rfl, m, ws, ts, rfl, rfl, hm, u, ws, y, ts, rfl, rfl, hy,
        rfl, rfl⟩ := hts
    obtain ⟨ys, rfl, hys⟩ := hy.lines_spelling rfl page
    simp only [items, List.append_assoc]
    exact .markIn hl (by decide) hs (.mark hm rfl rfl (.shift (.inl rfl) (spells_body hys)))
  | forStmt =>
    obtain ⟨l, ws, ts, rfl, rfl, hl, ts, rfl, v, ws, x, ts, rfl, rfl, hx, ts, rfl, u, ws, y, ts,
      rfl, rfl, hy, rfl, rfl⟩ := hts
    refine .mark hl rfl hs (.ifPresent hx rfl (.gap (.phrase hy rfl rfl .nil)) fun hx => ?_)
    exact .gap (.phrase hx rfl rfl (.gap (.phrase hy rfl rfl .nil)))
  | forClauses =>
    obtain ⟨l, ws, ts, rfl, rfl, hl, i, ws, a, ts, rfl, rfl, ha, m, ws, rfl, hm, v, ws, x, ts, rfl,
      rfl, hx, n, ws, rfl, hn, j, ws, c, ts, rfl, rfl, hc, u, ws, y, ts, rfl, rfl, hy, rfl, rfl⟩ :=
      hts
    simp only [items, List.append_assoc]
    refine .mark hl rfl hs ?_
    change Spells page _ _ _ _ ((if (!a.isNil || !c.isNil) = true then _ else _) ++ _)
    by_cases hclauses : (!a.isNil || !c.isNil) = true
    · rw [if_pos hclauses]
      refine .gap (.clause ha rfl rfl fun _ _ _ => .semicolon hm
        (.gap (.clause hx rfl rfl fun _ _ _ => ?_)))
      exact .semicolon hn (.gap (.clause hc rfl rfl fun _ _ _ => .gap (.phrase hy rfl rfl .nil)))
    · rw [if_neg hclauses]
      have hnil {q : Phrase} {ws : List Word} {t : Tree} (h : Derives .code (.opt q) ws t)
          (hq : q.isLaid = true)
          (ht : t.isNil = true) : ws = [] := by
        rcases h.opt_cases with ⟨hws, -⟩ | h
        · exact hws
        · rw [h.isNil_of_isLaid hq] at ht
          cases ht
      obtain ⟨ha', hc'⟩ : a.isNil = true ∧ c.isNil = true := by simpa using hclauses
      obtain rfl := hnil ha rfl ha'
      obtain rfl := hnil hc rfl hc'
      simp only [List.nil_append]
      refine .semicolon hm (.ifPresent hx rfl (.semicolon hn (.gap (.phrase hy rfl rfl .nil)))
        fun hx => ?_)
      exact .gap (.phrase hx rfl rfl (.semicolon hn (.gap (.phrase hy rfl rfl .nil))))
  | rangeStmt =>
    obtain ⟨l, ws, ts, rfl, rfl, hl, ts, rfl, ts, rfl, ts, rfl, m, ws, ts, rfl, rfl, hm, v, ws, x,
      ts, rfl, rfl, hx, u, ws, y, ts, rfl, rfl, hy, rfl, rfl⟩ := hts
    exact .mark hl rfl hs
      (.gap (.mark hm rfl rfl (.gap (.phrase hx rfl rfl (.gap (.phrase hy rfl rfl .nil))))))
  | rangeTargets =>
    obtain ⟨l, ws, ts, rfl, rfl, hl, t, ws, xs, ts, rfl, rfl, ht, n, ws, ts, rfl, rfl, hn, m, ws,
      ts, rfl, rfl, hm, v, ws, x, ts, rfl, rfl, hx, u, ws, y, ts, rfl, rfl, hy, rfl, rfl⟩ := hts
    have hrest (read : List Word) (since : Option Nat)
        (hs : since.all (Separator.suits .space) = true) :
        Spells page read .nothing since (.lexeme n :: .lexeme m :: (v ++ (u ++ [])))
          [.gap .space, .token n.pos n.token.text, .gap .space, .token m.pos "range",
            .gap .space, .tree x, .gap .space, .tree y] :=
      .gap (.markIn hn (by decide) hs (.gap (.mark hm rfl rfl (.gap (.phrase hx rfl rfl (.gap
        (.phrase hy rfl rfl .nil)))))))
    obtain ⟨xs, heq, hne, hxs⟩ := ht.commas
    cases heq
    have hkey : (xs[0]?.getD Tree.nil).isNil = false := by
      cases hxs with
      | nil => exact absurd rfl hne
      | last h | cons h => exact h.isNil_of_isLaid rfl
    have htargets (read : List Word) : Spells page read .space (some 0) _ _ :=
      spells_targets hxs hne rfl hrest
    generalize xs[0]?.getD Tree.nil = key at *
    generalize xs[1]?.getD Tree.nil = value at *
    refine .mark hl rfl hs (.gap ?_)
    change Spells page _ _ _ _ (Item.ifPresent key _ ++ _)
    rw [Item.ifPresent, hkey, if_neg Bool.false_ne_true, List.append_assoc, List.append_assoc]
    exact htargets _
  | _ => cases hk

/-- **Nodes are laid out as their words stand in the source.** -/
theorem spells (h : Row q k ps) (hq : q.isLaid = true) (hts : Part.Spelt ps ws ts)
    (hws : Word.Distinct ws) (hplaced : ∀ w ∈ ws, w.Placed) (hs : since.all s.suits = true) :
    Spells page read s since ws (Layout.items page ⟨k, ts⟩) := by
  cases hk : k.chapter with
  | types => exact h.spells_types hk hq hts hplaced hs
  | expressions => exact h.spells_expressions hk hts hws hplaced hs
  | declarations => exact h.spells_declarations hk hts hplaced hs
  | statements => exact h.spells_statements hk hq hts hs
  | control => exact h.spells_control hk hts hs

end Row

/-! ### All nodes -/

theorem Derives.spells {page : Page} {q : Phrase} {k : Kind} {fs : List Tree}
    {read ws : List Word} {t : Tree} {s : Separator} {since : Option Nat} (h : Derives .code q ws t)
    (hq : q.isLaid = true) (ht : t = .node k fs) (hws : Word.Distinct ws)
    (hplaced : ∀ w ∈ ws, w.Placed) (hs : since.all s.suits = true) :
    Spells page read s since ws (Layout.items page ⟨k, fs⟩) := by
  have hleaf {l : Lexeme} (hcarries : l.token.carriesText = true)
      (hloose : l.token.isLoose = false) :
      Spells page read s since [.lexeme l] [.token l.pos l.text] := by
    rw [← Lexeme.spelling_of_carriesText hcarries]
    exact .token hs hloose .nil
  generalize hd : Dialect.code = d at h
  induction h with
  | ident hl =>
    cases ht
    exact hleaf (by rw [hl]; rfl) (by rw [hl]; rfl)
  | literal hl =>
    cases ht
    exact hleaf (Token.text_of_isLiteral hl).1 (Token.text_of_isLiteral hl).2
  | dots hdots =>
    rw [← hd] at hdots
    cases hdots
  | period hl =>
    cases ht
    exact .mark hl rfl hs .nil
  | cover hc _ ih => exact ih (hc.isLaid (Phrase.isTokened_of_isLaid hq)) ht hws hplaced
  | node hr h =>
    cases ht
    subst hd
    obtain ⟨ts, heq, hts⟩ := h.spelt rfl
    cases heq
    exact hr.spells hq hts hws hplaced hs
  | _ => cases hq

/-- **What is printed by itself is laid out as its words stand in the source.** -/
theorem Spelling.spells {page : Page} {ws : List Word} {n : Node} {t : Tree}
    (h : Spelling page ws t) (ht : t = n.tree) (hcopy : page.copy? n = none)
    (hws : Word.Distinct ws) (hplaced : ∀ w ∈ ws, w.Placed) {read : List Word} {s : Separator}
    {since : Option Nat} (hs : since.all s.suits = true) :
    Spells page read s since ws (Layout.items page n) := by
  obtain ⟨k, fs⟩ := n
  change t = .node k fs at ht
  cases h with
  | phrase hq h => exact h.spells hq ht hws hplaced hs
  | @param vs ws names type hnames htype =>
    cases ht
    have hfield : Spells page read s since _ _ := Layout.spells_field .noDoc
      (hnames.imp fun _ _ => .phrase rfl) htype rfl (.none _)
      (fun w hw => hplaced w (List.mem_append_right _ hw)) hs
    rwa [List.append_nil] at hfield
  | copied hq h hsome =>
    cases ht
    rw [hcopy] at hsome
    cases hsome

end Graft
