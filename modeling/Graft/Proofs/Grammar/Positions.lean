import Graft.Proofs.Grammar.Placement

/-! # Where the nodes of a tree that was read stand

By induction over derivations, the nodes of a tree that was read stand in order, each at the place
of one of its words (`Derives.inOrder`).
-/

namespace Graft

/-- Whether the tree of every phrase of the sort has a place. -/
def Phrase.isPresent : Phrase → Bool
  | .doc | .opt _ | .orEmpty _ | .ended _ | .trailing _ | .lines _ | .parts _ => false
  | .member s | .one s | .more s | .behind _ s => s.isPresent
  | _ => true

/-- Whether a part always has a field with a place. -/
def Part.isPresent : Part → Bool
  | .mark _ | .markIn _ => true
  | .sub s => s.isPresent
  | _ => false

theorem Row.isPresent {s : Phrase} {k : Kind} {ps : List Part} (h : Row s k ps) :
    ps.any Part.isPresent = true := by
  cases h <;> rfl

theorem Covers.isPresent {s s' : Phrase} (h : Covers s s') (hs : s.isPresent = true) :
    s'.isPresent = true := by
  cases h <;> first | rfl | exact hs | cases hs

/-- No row is about comments. -/
theorem Row.isComment {s : Phrase} {k : Kind} {ps : List Part} (h : Row s k ps) :
    k.isComment = false := by
  cases h <;> rfl

/-- No row is about wildcards. -/
theorem Row.kind_ne_dots {s : Phrase} {k : Kind} {ps : List Part} (h : Row s k ps) : k ≠ .dots := by
  cases h <;> nofun

/-- A field for which no word stands has neither place nor nodes. -/
theorem Slot.silent_of_allows {s : Slot} {t : Tree} (h : s.allows t = true) :
    t.start.isValid = false ∧ t.nodes = [] := by
  unfold Slot.allows at h
  split at h
  · rename_i p
    obtain rfl : p = .none := by simpa using h
    exact ⟨rfl, rfl⟩
  · rename_i p
    obtain rfl : p = .none := by simpa using h
    exact ⟨rfl, rfl⟩
  · exact ⟨rfl, rfl⟩
  · exact ⟨rfl, rfl⟩
  · cases h

/-- Whether a word has a place, and is the tree of a comment group if it is a comment. -/
def Word.Placed : Word → Prop
  | .lexeme l => l.pos.isValid = true
  | .doc g => g.tree.start.isValid = true ∧ g.tree.kind? = some .commentGroup ∧
      ∀ n ∈ g.tree.nodes, n.kind.isComment = true

/-- A name holds no statement. -/
theorem Tree.nodes_of_ident {t : Tree} (h : t.isKind .ident = true)
    (hnodes : ∀ n ∈ t.nodes, n.kind = .ident → nodesAll n.fields = []) :
    ∀ m ∈ t.nodes, m.kind.isStmtOrDecl = false := by
  cases t with
  | node k fs =>
    obtain rfl : k = .ident := by simpa [isKind, kind?] using h
    rw [nodes_node, List.forall_mem_cons] at hnodes
    rw [nodes_node, hnodes.1 rfl]
    exact List.forall_mem_singleton.mpr rfl
  | _ => cases h

namespace Derives

variable {d : Dialect} {s : Phrase} {ws : List Word} {t : Tree}

/-- The trees of nodes and the items of lists are nodes, and no comments. -/
theorem isCode (h : Derives d s ws t) (hws : ∀ w ∈ ws, w.Placed) (hs : s.isProper = true) :
    (s.isNode = true → t.isCode = true) ∧ ∀ x ∈ t.items, x.isCode = true := by
  have hsnoc {ts : List Tree} {x : Tree} (hts : ∀ y ∈ (Tree.list ts).items, y.isCode = true)
      (hx : x.isCode = true) : ∀ y ∈ (Tree.list (ts ++ [x])).items, y.isCode = true :=
    List.forall_mem_append.mpr ⟨hts, List.forall_mem_singleton.mpr hx⟩
  induction h with
  | ident | literal | dots | period => exact ⟨fun _ => rfl, List.forall_mem_nil _⟩
  | noDoc | none | empty | endedNil | linesNil => exact ⟨by rintro ⟨⟩, List.forall_mem_nil _⟩
  | doc g =>
    obtain ⟨-, hkind, -⟩ := hws _ List.mem_cons_self
    refine ⟨by rintro ⟨⟩, ?_⟩
    cases hg : g.tree with
    | node => exact List.forall_mem_nil _
    | _ => rw [hg] at hkind; cases hkind
  | cover hc _ ih =>
    exact ⟨fun hn => (ih hws (hc.isProper hs)).1 (hc.isNode hn), (ih hws (hc.isProper hs)).2⟩
  | node hr => exact ⟨fun _ => by rw [Tree.isCode, hr.isComment]; rfl, List.forall_mem_nil _⟩
  | behind _ _ ih => exact ⟨by rintro ⟨⟩, (ih (fun w hw => hws w (List.mem_cons_of_mem _ hw)) hs).2⟩
  | spread _ _ ih => exact ⟨fun _ => (ih (fun w hw => hws w (List.mem_append_left _ hw)) rfl).1 rfl,
      (ih (fun w hw => hws w (List.mem_append_left _ hw)) rfl).2⟩
  | endedComma _ _ ih | linesSemicolon _ _ ih =>
    exact ⟨by rintro ⟨⟩, (ih (fun w hw => hws w (List.mem_append_left _ hw)) hs).2⟩
  | one hn _ ih => exact ⟨by rintro ⟨⟩, List.forall_mem_singleton.mpr ((ih hws hs).1 hn)⟩
  | firstName _ ih => exact ⟨by rintro ⟨⟩, List.forall_mem_singleton.mpr ((ih hws rfl).1 rfl)⟩
  | more hn _ _ ih₁ ih₂ | linesItem hn _ _ ih₁ ih₂ =>
    exact ⟨by rintro ⟨⟩, hsnoc (ih₁ (fun w hw => hws w (List.mem_append_left _ hw)) hs).2
      ((ih₂ (fun w hw => hws w (List.mem_append_right _ hw)) hs).1 hn)⟩
  | nextName _ _ _ ih₁ ih₂ =>
    refine ⟨by rintro ⟨⟩, hsnoc (ih₁ (fun w hw => hws w (List.mem_append_left _ hw)) rfl).2 ?_⟩
    exact (ih₂ (fun w hw => hws w (List.mem_append_right _ (List.mem_cons_of_mem _ hw))) rfl).1 rfl
  | partsNil | word | noLineEnd | lineEnd | mark | markIn | unmarked | sub | const | args | targets
  | params => cases hs

/-- What a part of a row stands for. -/
theorem of_sub {ps : List Part} {ts : List Tree}
    (h : Derives d (.parts (.sub s :: ps)) ws (.list ts)) :
    ∃ vs us t ts', ws = vs ++ us ∧ ts = t :: ts' ∧ Derives d s vs t ∧
      Derives d (.parts ps) us (.list ts') := by
  cases h with
  | sub hs hp => exact ⟨_, _, _, _, rfl, rfl, hs, hp⟩
  | cover hc => cases hc

theorem of_const {ps : List Part} {ts : List Tree}
    (h : Derives d (.parts (.const t :: ps)) ws (.list ts)) :
    ∃ ts', ts = t :: ts' ∧ Derives d (.parts ps) ws (.list ts') := by
  cases h with
  | const hp => exact ⟨_, rfl, hp⟩
  | cover hc => cases hc

/-- An entry of a parameter list is its name, if it has one, and its type. -/
theorem exists_of_entry {e : Rules.ParamEntry} (h : Derives d .entry ws e.field) :
    ∃ vs us s, ws = vs ++ us ∧ (∀ x ∈ e.name.toList, Derives d .paramType vs x) ∧
      (s = .paramType ∨ s = .dots) ∧ Derives d s us e.type := by
  obtain ⟨name, type⟩ := e
  change Derives d .entry ws (.node .field [.nil, .list name.toList, type, .nil]) at h
  cases h with
  | cover hc => cases hc
  | node hr h =>
    -- all rows of entries have their name, or none, and their type at the same place
    obtain ⟨p, s, hs, hparts⟩ : ∃ p s, (s = .paramType ∨ s = .dots) ∧
        (p = .const (.list []) ∨ p = .sub (.one .paramType)) ∧
        Derives d (.parts [.const .nil, p, .sub s, .const .nil]) ws
          (.list [.nil, .list name.toList, type, .nil]) := by
      cases hr with
      | entry => exact ⟨_, _, .inl rfl, .inl rfl, h⟩
      | dotsEntry => exact ⟨_, _, .inr rfl, .inl rfl, h⟩
      | namedEntry => exact ⟨_, _, .inl rfl, .inr rfl, h⟩
    obtain ⟨ts, heq, h₁⟩ := hparts.2.of_const
    cases heq
    obtain ⟨vs, us, rfl, hname, h₂⟩ : ∃ vs us, ws = vs ++ us ∧
        (∀ x ∈ name.toList, Derives d .paramType vs x) ∧
        Derives d (.parts [.sub s, .const .nil]) us (.list [type, .nil]) := by
      rcases hparts.1 with rfl | rfl
      · obtain ⟨ts, heq, h₂⟩ := h₁.of_const
        simp only [List.cons.injEq, Tree.list.injEq] at heq
        obtain ⟨hname, rfl⟩ := heq
        exact ⟨[], ws, rfl, by rw [hname]; nofun, h₂⟩
      · obtain ⟨vs, us, x, ts, rfl, heq, hx, h₂⟩ := h₁.of_sub
        cases heq
        refine ⟨vs, us, rfl, ?_, h₂⟩
        generalize name.toList = xs at hx
        cases hx with
        | one _ hx => exact List.forall_mem_singleton.mpr hx
        | cover hc => cases hc
    obtain ⟨us, us', x, ts, rfl, heq, hx, hnil⟩ := h₂.of_sub
    cases heq
    obtain ⟨ts, heq, hnil⟩ := hnil.of_const
    cases heq
    obtain rfl : us' = [] := by
      cases hnil with
      | partsNil => rfl
      | cover hc => cases hc
    exact ⟨vs, us, s, by rw [List.append_nil], hname, hs, hx⟩

/-- The name and the type of an entry of a parameter list are nodes. -/
theorem isCode_entry {e : Rules.ParamEntry} (h : Derives d .entry ws e.field)
    (hws : ∀ w ∈ ws, w.Placed) : ∀ t ∈ e.parts, t.isCode = true := by
  obtain ⟨vs, us, s, rfl, hname, hs, htype⟩ := h.exists_of_entry
  refine List.forall_mem_append.mpr ⟨fun x hx => ?_, List.forall_mem_singleton.mpr ?_⟩
  · exact ((hname x hx).isCode (fun w hw => hws w (List.mem_append_left _ hw)) rfl).1 rfl
  · obtain ⟨hproper, hnode⟩ : s.isProper = true ∧ s.isNode = true := by
      rcases hs with rfl | rfl <;> exact ⟨rfl, rfl⟩
    exact (htype.isCode (fun w hw => hws w (List.mem_append_right _ hw)) hproper).1 hnode

/-- The sort of the items of a list. -/
def Phrase.item? : Phrase → Option Phrase
  | .ended s | .more s | .trailing s => some s
  | _ => .none

/-- The items of a list are phrases of some of its words. -/
theorem exists_of_mem_items {s' : Phrase} (h : Derives d s ws t) (hs : Phrase.item? s = some s') :
    ∀ x ∈ t.items, ∃ vs, vs.Sublist ws ∧ Derives d s' vs x := by
  induction h with
  | endedNil => nofun
  | endedComma _ _ ih =>
    intro x hx
    obtain ⟨vs, hvs, h⟩ := ih hs x hx
    exact ⟨vs, hvs.trans (List.sublist_append_left _ _), h⟩
  | more _ _ ht ih _ =>
    refine List.forall_mem_append.mpr ⟨fun x hx => ?_, List.forall_mem_singleton.mpr ?_⟩
    · obtain ⟨vs, hvs, h⟩ := ih hs x hx
      exact ⟨vs, hvs.trans (List.sublist_append_left _ _), h⟩
    · cases hs
      exact ⟨_, List.sublist_append_right _ _, ht⟩
  | cover hc _ ih =>
    cases hc with
    | trailingEnded | trailingMore => exact ih hs
    | _ => cases hs
  | node hr => cases hr <;> cases hs
  | _ => cases hs

/-- Names and wildcards have nothing inside. -/
theorem nodes_leaf (h : Derives d s ws t) (hs : s.isBare = true) (hws : ∀ w ∈ ws, w.Placed) :
    ∀ n ∈ t.nodes, n.kind = .ident ∨ n.kind = .dots → Tree.nodesAll n.fields = [] := by
  refine h.forall_nodes (fun _ _ _ => rfl) (fun _ _ _ => nofun) (fun _ _ => rfl)
    (fun _ _ => nofun) ?_ hs ?_
  · rintro s k ps ws ts hr - (rfl | rfl)
    · cases hr
    · cases hr
  · intro g hg n hn hk
    have hcomment := (hws _ hg).2.2 n hn
    rcases hk with hk | hk
    all_goals
      rw [hk] at hcomment
      cases hcomment

/-- What an induction over derivations shows of the place of a tree: it is in order, and so are the
fields of a node behind any others. -/
def Placing (s : Phrase) (ws : List Word) (t : Tree) : Prop :=
  (s.isProper = true →
    InOrder ws [t] t.stop ∧ (s.isPresent = true → t.start.isValid = true)) ∧
  ∀ {ps ts i fs u}, s = .parts ps → t = .list ts → u.length = i → Part.fits i ps fs = true →
    InOrder ws ts (Tree.stopFields (u ++ ts) fs ts) ∧
      (ps.any Part.isPresent = true → (Tree.startAll ts).isValid = true)

theorem Placing.of_tree (hs : ∀ ps, s ≠ .parts ps)
    (h : s.isProper = true → InOrder ws [t] t.stop ∧
      (s.isPresent = true → t.start.isValid = true)) :
    Placing s ws t :=
  ⟨h, fun hp => absurd hp (hs _)⟩

theorem Placing.of_parts {ps : List Part} {ts : List Tree}
    (h : ∀ {fs front}, Part.fits front.length ps fs = true →
      InOrder ws ts (Tree.stopFields (front ++ ts) fs ts) ∧
        (ps.any Part.isPresent = true → (Tree.startAll ts).isValid = true)) :
    Placing (.parts ps) ws (.list ts) := by
  refine ⟨nofun, ?_⟩
  rintro ps ts i fs front ⟨⟩ ⟨⟩ rfl hfits
  exact h hfits

theorem Placing.rest {ps : List Part} {ts : List Tree} (h : Placing (.parts ps) ws (.list ts))
    (front us : List Tree) {fs : List Field}
    (hfits : Part.fits (front.length + us.length) ps fs = true) :
    InOrder ws ts (Tree.stopFields (front ++ (us ++ ts)) fs ts) ∧
      (ps.any Part.isPresent = true → (Tree.startAll ts).isValid = true) := by
  rw [← List.append_assoc]
  exact h.2 rfl rfl (List.length_append ..) hfits

/-- A phrase with the same tree and more words. -/
theorem Placing.loosen {s' : Phrase} {ws' : List Word} (h : Placing s' ws' t)
    (hs : ∀ ps, s ≠ .parts ps) (hws : ∀ w ∈ ws', w ∈ ws)
    (hproper : s.isProper = true → s'.isProper = true)
    (hpresent : s.isPresent = true → s'.isPresent = true) : Placing s ws t := by
  refine .of_tree hs fun hs => ?_
  obtain ⟨horder, hvalid⟩ := h.1 (hproper hs)
  exact ⟨horder.mono hws (Pos.le_refl _), fun h => hvalid (hpresent h)⟩

/-- One more item of a list. -/
theorem Placing.snoc {s' s'' : Phrase} {ws' : List Word} {ts : List Tree}
    (h : Placing s' ws (.list ts)) (ht : Placing s'' ws' t)
    (hws : ∀ v ∈ ws, ∀ w ∈ ws', v.start ≤ w.start) (hs : ∀ ps, s ≠ .parts ps)
    (hproper : s.isProper = true → s'.isProper = true ∧ s''.isProper = true)
    (hpresent : s.isPresent = true → s''.isPresent = true) :
    Placing s (ws ++ ws') (.list (ts ++ [t])) := by
  refine .of_tree hs fun hs => ?_
  obtain ⟨hts, -⟩ := h.1 (hproper hs).1
  obtain ⟨ht, hvalid⟩ := ht.1 (hproper hs).2
  refine ⟨InOrder.list_iff.mpr ((InOrder.list_iff.mp hts).append ht hws ?_ ?_), fun hpres => ?_⟩
  · rw [Tree.stop_list, Tree.stop_list]
    exact Tree.stopAll_le_append
  · rw [Tree.stop_list]
    exact Tree.stop_le_stopAll (List.mem_append_right _ List.mem_cons_self)
  · rw [Tree.start, Tree.startAll_append]
    split
    · assumption
    · rw [Tree.startAll_singleton]
      exact hvalid (hpresent hpres)

/-- A node that is one word. -/
theorem Placing.leaf {l : Lexeme} {k : Kind} {fs : List Tree} (hs : ∀ ps, s ≠ .parts ps)
    (hvalid : l.pos.isValid = true) (hsemi : l.token ≠ .semicolon)
    (hfs : Tree.nodesAll fs = []) (hstop : l.stop ≤ (Tree.node k (.pos l.pos :: fs)).stop) :
    Placing s [.lexeme l] (.node k (.pos l.pos :: fs)) := by
  have hstart : Tree.startAll (.pos l.pos :: fs) = l.pos := by
    have hpos : (Tree.pos l.pos).start = l.pos := by rw [Tree.start]
    rw [Tree.startAll_of_isValid (by rw [hpos]; exact hvalid), hpos]
  refine .of_tree hs fun _ => ⟨InOrder.node (.of_no_nodes ?_ fun _ => ?_) ?_ rfl, fun _ => ?_⟩
  · rw [Tree.nodesAll, Tree.nodes, hfs]
    · rfl
    all_goals nofun
  · rw [hstart]
    exact ⟨_, List.mem_cons_self, by simpa [Word.isSemicolon] using hsemi, hvalid, rfl, hstop⟩
  · rw [hstart]
    exact hvalid
  · rw [Tree.start, hstart]
    exact hvalid

namespace Placing

variable {ps : List Part} {ts : List Tree}

/-! Each part adds the fields that its words stand for. -/

theorem part {p : Part} {v : List Word} (u : List Tree) (h : Placing (.parts ps) ws (.list ts))
    (hws : ∀ x ∈ v, ∀ w ∈ ws, x.start ≤ w.start)
    (hfits : ∀ {i fs}, Part.fits i (p :: ps) fs = true →
      ∃ gs hs, fs = gs ++ hs ∧ gs.length = u.length ∧ Part.fits (i + u.length) ps hs = true ∧
        (∀ {front}, front.length = i →
          InOrder v u (Tree.stopFields (front ++ (u ++ ts)) (gs ++ hs) (u ++ ts))) ∧
        (p.isPresent = true → (Tree.startAll u).isValid = true)) :
    Placing (.parts (p :: ps)) (v ++ ws) (.list (u ++ ts)) := by
  refine .of_parts fun {fs front} hfits' => ?_
  obtain ⟨gs, hs, rfl, hlength, hrest, hhere, hvalid⟩ := hfits hfits'
  obtain ⟨hts, hpresent⟩ := h.rest front u hrest
  refine ⟨(hhere rfl).append hts hws (Pos.le_refl _) (Tree.stopFields_le_append hlength),
    fun hpres => ?_⟩
  rw [Tree.startAll_append]
  split
  · assumption
  · rename_i hnot
    rw [List.any_cons, Bool.or_eq_true] at hpres
    rcases hpres with hpres | hpres
    · exact absurd (hvalid hpres) hnot
    · exact hpresent hpres

/-- A token that is not recorded. -/
theorem unrecorded {p : Part} {v : List Word} (h : Placing (.parts ps) ws (.list ts))
    (hws : ∀ x ∈ v, ∀ w ∈ ws, x.start ≤ w.start) (hp : p.isPresent = false)
    (hfits : ∀ i fs, Part.fits i (p :: ps) fs = Part.fits i ps fs) :
    Placing (.parts (p :: ps)) (v ++ ws) (.list ts) := by
  refine part [] h hws fun {i fs} hfits' => ?_
  refine ⟨[], fs, rfl, rfl, by rwa [hfits] at hfits', fun _ => .of_no_nodes rfl nofun,
    fun hpres => ?_⟩
  rw [hp] at hpres
  cases hpres

theorem mark {tok : Token} {l : Lexeme} (h : Placing (.parts ps) ws (.list ts)) (hl : l.token = tok)
    (hvalid : l.pos.isValid = true) (hws : ∀ w ∈ ws, (Word.lexeme l).start ≤ w.start) :
    Placing (.parts (.mark tok :: ps)) (.lexeme l :: ws) (.list (.pos l.pos :: ts)) := by
  refine part [.pos l.pos] h (List.forall_mem_singleton.mpr hws) fun {i fs} hfits => ?_
  cases fs with
  | nil => cases hfits
  | cons f fs =>
    simp only [Part.fits, Bool.and_eq_true] at hfits
    obtain ⟨w, hw, hcarries⟩ := Slot.exists_of_records hfits.1
    refine ⟨[f], fs, rfl, rfl, hfits.2, fun _ => .token List.mem_cons_self hvalid ?_ ?_,
      fun _ => ?_⟩
    · intro hsemi
      rw [← hl, hsemi] at hcarries
      cases hcarries
    · rw [Lexeme.stop, Lexeme.spelling_of_not_carriesText (by rw [hl]; exact hcarries), hl]
      exact Tree.advance_le_stopFields hw (tokenWidth_of_records (hw ▸ hfits.1))
    · rw [Tree.startAll_singleton, Tree.start]
      exact hvalid

theorem markIn {toks : List Token} {l : Lexeme} (h : Placing (.parts ps) ws (.list ts))
    (hl : l.token ∈ toks) (hvalid : l.pos.isValid = true)
    (hws : ∀ w ∈ ws, (Word.lexeme l).start ≤ w.start) :
    Placing (.parts (.markIn toks :: ps)) (.lexeme l :: ws)
      (.list (.pos l.pos :: .tok l.token :: ts)) := by
  refine part [.pos l.pos, .tok l.token] h (List.forall_mem_singleton.mpr hws)
    fun {i fs} hfits => ?_
  match fs, hfits with
  | f :: g :: fs, hfits =>
    simp only [Part.fits, Bool.and_eq_true, beq_iff_eq, List.all_eq_true] at hfits
    obtain ⟨hcarries, hillegal⟩ := Token.isFixed_iff.mp (hfits.1.2 _ hl)
    refine ⟨[f, g], fs, rfl, rfl, hfits.2, fun {front} hlength => ?_, fun _ => ?_⟩
    · have hstop : l.stop ≤ Tree.stopFields (front ++ (.pos l.pos :: .tok l.token :: ts))
          (f :: g :: fs)
          (.pos l.pos :: .tok l.token :: ts) := by
        rw [Lexeme.stop, Lexeme.spelling_of_not_carriesText hcarries]
        exact Tree.advance_le_stopFields hfits.1.1
          (tokenWidth_ofField (by simp [← hlength]) hillegal)
      have hsemi : l.token ≠ .semicolon := by
        intro hsemi
        rw [hsemi] at hcarries
        cases hcarries
      exact (InOrder.token List.mem_cons_self hvalid hsemi hstop).snoc (.silent rfl rfl) rfl
    · have hstart : (Tree.pos l.pos).start = l.pos := by rw [Tree.start]
      rw [Tree.startAll_of_isValid (by rw [hstart]; exact hvalid), hstart]
      exact hvalid

theorem unmarked (h : Placing (.parts ps) ws (.list ts)) :
    Placing (.parts (.unmarked :: ps)) ws (.list (.pos .none :: .tok .illegal :: ts)) := by
  refine part (v := []) [.pos .none, .tok .illegal] h (List.forall_mem_nil _) fun {i fs} hfits => ?_
  obtain _ | ⟨f, _ | ⟨g, fs⟩⟩ := fs
  · cases hfits
  · cases hfits
  · simp only [Part.fits, Bool.and_eq_true] at hfits
    have hpos {q : Pos} : InOrder [] [.pos .none] q := .silent rfl rfl
    exact ⟨[f, g], fs, rfl, rfl, hfits.2, fun _ => hpos.snoc (.silent rfl rfl) rfl, by rintro ⟨⟩⟩

theorem const (h : Placing (.parts ps) ws (.list ts)) :
    Placing (.parts (.const t :: ps)) ws (.list (t :: ts)) := by
  refine part (v := []) [t] h (List.forall_mem_nil _) fun {i fs} hfits => ?_
  cases fs with
  | nil => cases hfits
  | cons f fs =>
    simp only [Part.fits, Bool.and_eq_true] at hfits
    obtain ⟨hstart, hnodes⟩ := Slot.silent_of_allows hfits.1
    exact ⟨[f], fs, rfl, rfl, hfits.2, fun _ => .silent hstart hnodes, by rintro ⟨⟩⟩

theorem sub {v : List Word} (ht : Placing s v t) (h : Placing (.parts ps) ws (.list ts))
    (hws : ∀ x ∈ v, ∀ w ∈ ws, x.start ≤ w.start) :
    Placing (.parts (.sub s :: ps)) (v ++ ws) (.list (t :: ts)) := by
  refine part [t] h hws fun {i fs} hfits => ?_
  cases fs with
  | nil => cases hfits
  | cons f fs =>
    simp only [Part.fits, Bool.and_eq_true] at hfits
    obtain ⟨horder, hvalid⟩ := ht.1 hfits.1
    refine ⟨[f], fs, rfl, rfl, hfits.2, fun _ =>
      horder.mono (fun _ hw => hw) Tree.stop_le_stopFields, fun hpres => ?_⟩
    rw [Tree.startAll_singleton]
    exact hvalid hpres

theorem args {v : List Word} {xs : List Tree} {p : Pos}
    (hxs : Placing (.trailing .arg) v (.list xs)) (hp : IsSpread v xs p) (hv : ∀ x ∈ v, x.Placed)
    (h : Placing (.parts ps) ws (.list ts)) (hws : ∀ x ∈ v, ∀ w ∈ ws, x.start ≤ w.start) :
    Placing (.parts (.args :: ps)) (v ++ ws) (.list (.list xs :: .pos p :: ts)) := by
  refine part [.list xs, .pos p] h hws fun {i fs} hfits => ?_
  obtain _ | ⟨f, _ | ⟨g, fs⟩⟩ := fs
  · cases hfits
  · cases hfits
  · simp only [Part.fits, Bool.and_eq_true, beq_iff_eq] at hfits
    refine ⟨[f, g], fs, rfl, rfl, hfits.2, fun {front} _ => ?_, by rintro ⟨⟩⟩
    have hstop : (Tree.list xs).stop ≤ Tree.stopFields (front ++ (.list xs :: .pos p :: ts))
        (f :: g :: fs) (.list xs :: .pos p :: ts) := Tree.stop_le_stopFields
    refine ((hxs.1 rfl).1.mono (fun _ hw => hw) hstop).snoc ?_ rfl
    rcases hp with rfl | ⟨l, hl, htoken, rfl, -⟩
    · exact .silent rfl rfl
    · refine .token hl (hv _ hl) (by rw [htoken]; decide) (Pos.le_trans ?_ Tree.stopFields_le_cons)
      rw [Lexeme.stop, Lexeme.spelling_of_not_carriesText (by rw [htoken]; rfl), htoken]
      exact Tree.advance_le_stopFields hfits.1 rfl

theorem targets {v : List Word} {xs : List Tree} (hxs : Placing (.more .expr) v (.list xs))
    (hcode : ∀ x ∈ xs, x.isCode = true) (h : Placing (.parts ps) ws (.list ts))
    (hws : ∀ x ∈ v, ∀ w ∈ ws, x.start ≤ w.start) :
    Placing (.parts (.targets :: ps)) (v ++ ws)
      (.list (xs[0]?.getD .nil :: xs[1]?.getD .nil :: ts)) := by
  refine part [xs[0]?.getD .nil, xs[1]?.getD .nil] h hws fun {i fs} hfits => ?_
  obtain _ | ⟨f, _ | ⟨g, fs⟩⟩ := fs
  · cases hfits
  · cases hfits
  · simp only [Part.fits] at hfits
    refine ⟨[f, g], fs, rfl, rfl, hfits, fun {front} _ => ?_, by rintro ⟨⟩⟩
    have hlist := InOrder.list_iff.mp (hxs.1 rfl).1
    obtain _ | ⟨x, _ | ⟨y, xs⟩⟩ := xs
    · have hnil {q : Pos} : InOrder v [.nil] q := .silent rfl rfl
      exact hnil.snoc (.silent rfl rfl) rfl
    · have hone := hlist.sublist hcode (.refl _)
      refine InOrder.snoc (hone.mono (fun _ hw => hw) ?_) (.silent rfl rfl) rfl
      exact Tree.stopAll_le_iff.mpr (List.forall_mem_singleton.mpr Tree.stop_le_stopFields)
    · have htwo : [x, y].Sublist (x :: y :: xs) := List.sublist_append_left [x, y] xs
      refine (hlist.sublist hcode htwo).mono (fun _ hw => hw) (Tree.stopAll_le_iff.mpr ?_)
      refine List.forall_mem_cons.mpr ⟨Tree.stop_le_stopFields, List.forall_mem_singleton.mpr ?_⟩
      exact Pos.le_trans Tree.stop_le_stopFields Tree.stopFields_le_cons

theorem params {v : List Word} {es : List Rules.ParamEntry} {xs : List Tree}
    (hes : Placing (.trailing .entry) v (.list (es.map (·.field))))
    (hxs : Rules.fieldsOfEntries es = .ok xs)
    (hident : ∀ e ∈ es, e.type.isKind .ident = true →
      ∀ m ∈ e.type.nodes, m.kind.isStmtOrDecl = false)
    (hcode : ∀ e ∈ es, ∀ t ∈ e.parts, t.isCode = true) (h : Placing (.parts ps) ws (.list ts))
    (hws : ∀ x ∈ v, ∀ w ∈ ws, x.start ≤ w.start) :
    Placing (.parts (.params :: ps)) (v ++ ws) (.list (.list xs :: ts)) := by
  have hfields := Rules.inOrder_fieldsOfEntries hxs hident hcode (InOrder.list_iff.mp (hes.1 rfl).1)
  refine part [.list xs] h hws fun {i fs} hfits => ?_
  cases fs with
  | nil => cases hfits
  | cons f fs =>
    simp only [Part.fits] at hfits
    refine ⟨[f], fs, rfl, rfl, hfits, fun _ => ?_, by rintro ⟨⟩⟩
    rw [InOrder.list_iff]
    refine hfields.mono (fun _ hw => hw) ?_
    rw [← Tree.stop_list]
    exact Tree.stop_le_stopFields

end Placing

theorem placing (h : Derives d s ws t) (hbare : s.isBare = true) (hws : ∀ w ∈ ws, w.Placed)
    (horder : ws.Pairwise (fun v w => v.start ≤ w.start)) : Placing s ws t := by
  have left {vs us : List Word} {P : Word → Prop} (h : ∀ w ∈ vs ++ us, P w) : ∀ w ∈ vs, P w :=
    fun w hw => h w (List.mem_append_left _ hw)
  have right {vs us : List Word} {P : Word → Prop} (h : ∀ w ∈ vs ++ us, P w) : ∀ w ∈ us, P w :=
    fun w hw => h w (List.mem_append_right _ hw)
  have tail {v : Word} {us : List Word} {P : Word → Prop} (h : ∀ w ∈ v :: us, P w) :
      ∀ w ∈ us, P w :=
    fun w hw => h w (List.mem_cons_of_mem _ hw)
  induction h with
  | ident hl =>
    refine .leaf nofun (hws _ List.mem_cons_self) (by rw [hl]; decide) rfl ?_
    exact (Derives.ident (d := d) hl).stop_last rfl rfl rfl
  | literal hl =>
    refine .leaf nofun (hws _ List.mem_cons_self) (fun hsemi => ?_) rfl ?_
    · rw [hsemi] at hl
      cases hl
    · exact (Derives.literal (d := d) hl).stop_last rfl rfl rfl
  | dots hd hl =>
    refine .leaf nofun (hws _ List.mem_cons_self) (by rw [hl]; decide) rfl ?_
    exact (Derives.dots hd hl).stop_last rfl rfl rfl
  | period hl =>
    refine .leaf nofun (hws _ List.mem_cons_self) (by rw [hl]; decide) rfl ?_
    exact (Derives.period (d := d) hl).stop_last rfl rfl rfl
  | noDoc | none | empty | endedNil | linesNil =>
    exact .of_tree nofun fun _ => ⟨.silent rfl rfl, nofun⟩
  | doc g =>
    obtain ⟨hvalid, -, hnodes⟩ := hws _ List.mem_cons_self
    exact .of_tree nofun fun _ => ⟨.comment List.mem_cons_self hvalid hnodes, nofun⟩
  | cover hc _ ih =>
    exact (ih (hc.isBare hbare) hws horder).loosen (by rintro ps rfl; cases hc)
      (fun _ hw => hw) hc.isProper
      hc.isPresent
  | node hr _ ih =>
    refine .of_tree (by rintro ps rfl; cases hr) fun hs => ?_
    obtain ⟨hin, hvalid⟩ := (ih (hr.isBare hbare) hws horder).2 (u := []) rfl rfl rfl (hr.fits hs)
    refine ⟨hin.node (hvalid hr.isPresent) ?_, fun _ => ?_⟩
    · rw [Tree.stop]
      rfl
    · rw [Tree.start]
      exact hvalid hr.isPresent
  | behind _ _ ih =>
    exact (ih (Phrase.isBare_of_isProper hbare) (tail hws) (List.pairwise_cons.mp horder).2).loosen
      nofun
      (fun _ hw => List.mem_cons_of_mem _ hw) id id
  | spread _ _ ih =>
    exact (ih rfl (left hws) (List.pairwise_append.mp horder).1).loosen nofun
      (fun _ hw => List.mem_append_left _ hw) (fun _ => rfl) fun _ => rfl
  | endedComma _ _ ih | linesSemicolon _ _ ih =>
    exact (ih hbare (left hws) (List.pairwise_append.mp horder).1).loosen nofun
      (fun _ hw => List.mem_append_left _ hw) id nofun
  | one _ _ ih =>
    have hnil : Placing (.ended .ident) [] (.list []) :=
      .of_tree nofun fun _ => ⟨.silent rfl rfl, nofun⟩
    exact hnil.snoc (ih (Phrase.isBare_of_isProper hbare) hws horder) nofun nofun
      (fun hs => ⟨rfl, hs⟩) id
  | firstName _ ih =>
    have hnil : Placing (.ended .ident) [] (.list []) :=
      .of_tree nofun fun _ => ⟨.silent rfl rfl, nofun⟩
    exact hnil.snoc (ih rfl hws horder) nofun nofun (fun _ => ⟨rfl, rfl⟩) id
  | more _ _ _ ih₁ ih₂ =>
    obtain ⟨h₁, h₂, hcross⟩ := List.pairwise_append.mp horder
    exact (ih₁ hbare (left hws) h₁).snoc (ih₂ (Phrase.isBare_of_isProper hbare)
      (right hws) h₂) hcross
      nofun (fun hs => ⟨hs, hs⟩) id
  | linesItem _ _ _ ih₁ ih₂ =>
    obtain ⟨h₁, h₂, hcross⟩ := List.pairwise_append.mp horder
    exact (ih₁ hbare (left hws) h₁).snoc (ih₂ (Phrase.isBare_of_isProper hbare)
      (right hws) h₂) hcross
      nofun (fun hs => ⟨hs, hs⟩) nofun
  | @nextName _ ws' l _ t _ _ _ ih₁ ih₂ =>
    obtain ⟨h₁, h₂, hcross⟩ := List.pairwise_append.mp horder
    have hlast : Placing .ident (.lexeme l :: ws') t :=
      (ih₂ rfl (tail (right hws)) (List.pairwise_cons.mp h₂).2).loosen nofun
        (fun _ hw => List.mem_cons_of_mem _ hw) id id
    exact (ih₁ rfl (left hws) h₁).snoc hlast hcross nofun (fun _ => ⟨rfl, rfl⟩) fun _ => rfl
  | partsNil => exact .of_parts fun _ => ⟨.of_no_nodes rfl nofun, nofun⟩
  | word _ _ ih | lineEnd _ _ ih =>
    obtain ⟨hfirst, h₁⟩ := List.pairwise_cons.mp horder
    exact (ih hbare (tail hws) h₁).unrecorded (List.forall_mem_singleton.mpr hfirst) rfl
      fun _ _ => by rw [Part.fits]
  | noLineEnd _ ih =>
    exact (ih hbare hws horder).unrecorded (v := []) nofun rfl fun _ _ => by rw [Part.fits]
  | mark hl _ ih =>
    obtain ⟨hfirst, h₁⟩ := List.pairwise_cons.mp horder
    exact (ih hbare (tail hws) h₁).mark hl (hws _ List.mem_cons_self) hfirst
  | markIn hl _ ih =>
    obtain ⟨hfirst, h₁⟩ := List.pairwise_cons.mp horder
    exact (ih hbare (tail hws) h₁).markIn hl (hws _ List.mem_cons_self) hfirst
  | unmarked _ ih => exact (ih hbare hws horder).unmarked
  | const _ ih => exact (ih ((Bool.and_eq_true _ _).mp hbare).2 hws horder).const
  | sub _ _ ih₁ ih₂ =>
    obtain ⟨hs₁, hs₂⟩ := (Bool.and_eq_true _ _).mp hbare
    obtain ⟨h₁, h₂, hcross⟩ := List.pairwise_append.mp horder
    exact (ih₁ (Phrase.isBare_of_isProper hs₁) (left hws) h₁).sub (ih₂ hs₂ (right hws) h₂) hcross
  | args _ hp _ ih₁ ih₂ =>
    obtain ⟨h₁, h₂, hcross⟩ := List.pairwise_append.mp horder
    exact (ih₁ rfl (left hws) h₁).args hp (left hws) (ih₂ hbare (right hws) h₂) hcross
  | targets hs _ ih₁ ih₂ =>
    obtain ⟨h₁, h₂, hcross⟩ := List.pairwise_append.mp horder
    exact (ih₁ rfl (left hws) h₁).targets (hs.isCode (left hws) rfl).2
      (ih₂ hbare (right hws) h₂) hcross
  | params hs hfields _ ih₁ ih₂ =>
    obtain ⟨h₁, h₂, hcross⟩ := List.pairwise_append.mp horder
    have hitems := hs.exists_of_mem_items rfl
    refine (ih₁ rfl (left hws) h₁).params hfields (fun e he hkind m hm => ?_) (fun e he => ?_)
      (ih₂ hbare (right hws) h₂) hcross
    · have hnodes := hs.nodes_leaf rfl (left hws)
      rw [Tree.nodes_list, Tree.forall_nodesAll] at hnodes
      have hfield := hnodes _ (List.mem_map_of_mem he)
      rw [Rules.ParamEntry.field, Tree.forall_nodes_field] at hfield
      exact Tree.nodes_of_ident hkind (fun n hn hk => hfield.2.2 n hn (.inl hk)) m hm
    · obtain ⟨vs, hvs, hentry⟩ := hitems e.field (List.mem_map_of_mem he)
      exact hentry.isCode_entry fun w hw => hws w (List.mem_append_left _ (hvs.subset hw))

end Derives

end Graft
