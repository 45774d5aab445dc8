import Graft.Proofs.Grammar.Regular

/-! # The items of lists stand apart

If of two phrases with words one behind the other the first ends before the second begins
(`Word.Separate`), then the items of every list of a tree stand apart: each ends before the next
begins (`Derives.apart`).

The fields of a parameter list are no phrases, since names that share a type are put together with
it.  But in code they are made of the names and types of the entries, in their order
(`Rules.parts_fieldsOfEntries`), and these are phrases.
-/

namespace Graft

/-- Whether a value ends before another begins, which stands somewhere. -/
def Tree.Before (a b : Tree) : Prop := b.start.isValid = true ∧ a.stop ≤ b.start

/-- Whether of two phrases of some words, one behind the other, the first ends before the second
begins. -/
structure Word.Separate (d : Dialect) (ws : List Word) : Prop where
  before : ∀ {s s' : Phrase} {vs us : List Word} {a b : Tree}, s.isProper = true →
    s'.isProper = true →
    s'.isPresent = true → (vs ++ us).Sublist ws → Derives d s vs a → Derives d s' us b → a.Before b

theorem Word.Separate.sublist {d : Dialect} {vs ws : List Word} (h : Separate d ws)
    (hsub : vs.Sublist ws) : Separate d vs :=
  ⟨fun hs hs' hpresent hvs ha hb => h.before hs hs' hpresent (hvs.trans hsub) ha hb⟩

/-- Phrases that are nodes stand somewhere. -/
theorem Phrase.isPresent_of_isNode {s : Phrase} (h : s.isNode = true) : s.isPresent = true := by
  fun_induction Phrase.isNode s with
  | case12 s ih => exact ih h
  | case13 s => cases s <;> first | rfl | simp at *
  | _ => cases h

/-- Whether values are phrases of some of the words, each of which ends before the next begins. -/
structure InTurn (d : Dialect) (ws : List Word) (ts : List Tree) : Prop where
  phrase : ∀ t ∈ ts, ∃ s vs, s.isProper = true ∧ s.isPresent = true ∧ vs.Sublist ws ∧
    Derives d s vs t
  before : ts.Pairwise Tree.Before

namespace InTurn

variable {d : Dialect} {vs ws : List Word} {ts us : List Tree}

theorem nil : InTurn d ws [] := ⟨nofun, .nil⟩

theorem mono (h : InTurn d vs ts) (hsub : vs.Sublist ws) : InTurn d ws ts where
  phrase t ht := by
    obtain ⟨s, us, hs, hpresent, hus, ht⟩ := h.phrase t ht
    exact ⟨s, us, hs, hpresent, hus.trans hsub, ht⟩
  before := h.before

theorem singleton {s : Phrase} {t : Tree} (h : Derives d s ws t) (hs : s.isProper = true)
    (hpresent : s.isPresent = true) : InTurn d ws [t] where
  phrase := List.forall_mem_singleton.mpr ⟨s, ws, hs, hpresent, .refl _, h⟩
  before := List.pairwise_singleton _ _

/-- Phrases behind others. -/
theorem append (h : InTurn d vs ts) (h' : InTurn d ws us) (hws : Word.Separate d (vs ++ ws)) :
    InTurn d (vs ++ ws) (ts ++ us) where
  phrase := List.forall_mem_append.mpr ⟨(h.mono (List.sublist_append_left _ _)).phrase,
    (h'.mono (List.sublist_append_right _ _)).phrase⟩
  before := by
    refine List.pairwise_append.mpr ⟨h.before, h'.before, fun a ha b hb => ?_⟩
    obtain ⟨s, vs', hs, -, hvs, ha⟩ := h.phrase a ha
    obtain ⟨s', ws', hs', hpresent, hws', hb⟩ := h'.phrase b hb
    exact hws.before hs hs' hpresent (hvs.append hws') ha hb

end InTurn

/-! ### Parameter lists -/

namespace Rules

/-- The names and the type of a field without comment and tag. -/
def fieldParts : Tree → List Tree
  | .node .field [.nil, .list names, type, .nil] => names ++ [type]
  | _ => []

variable {es : List ParamEntry} {fs : List Tree}

theorem parts_namedFields {pending : List Tree} (h : namedFields pending es = .ok fs)
    (hdots : ∀ e ∈ es, e.type.isKind .dots = false) :
    fs.flatMap fieldParts = pending ++ es.flatMap (·.parts) := by
  fun_induction namedFields pending es generalizing fs with
  | case1 =>
    cases h
    rfl
  | case2 => cases h
  | case3 pending name type es ih =>
    obtain ⟨gs, hgs, h⟩ := exists_of_bind_ok h
    cases h
    have hrest := ih hgs fun e he => hdots e (List.mem_cons_of_mem _ he)
    rw [List.flatMap_cons, hrest, List.flatMap_cons]
    simp [fieldParts, plainField, ParamEntry.parts]
  | case4 pending type es hkind =>
    rw [hdots _ List.mem_cons_self] at hkind
    cases hkind
  | case5 pending type es _ _ ih =>
    rw [ih h fun e he => hdots e (List.mem_cons_of_mem _ he)]
    simp [ParamEntry.parts]
  | case6 => cases h

/-- **Without wildcards, the names and types of the fields of a parameter list are those of its
entries, in their order.** -/
theorem parts_fieldsOfEntries (h : fieldsOfEntries es = .ok fs)
    (hdots : ∀ e ∈ es, e.type.isKind .dots = false) :
    fs.flatMap fieldParts = es.flatMap (·.parts) := by
  rcases namedFields_or_fields h with h | rfl
  · exact parts_namedFields h hdots
  · rw [List.flatMap_map]
    exact List.flatMap_congr fun e _ => rfl

theorem stop_plainField_le {names : List Tree} {type : Tree} {q : Pos}
    (h : ∀ x ∈ names ++ [type], x.stop ≤ q) : (plainField names type).stop ≤ q := by
  obtain ⟨hnames, htype⟩ := List.forall_mem_append.mp h
  have hlist : (Tree.list names).stop ≤ q := by
    rw [Tree.stop_list]
    exact Tree.stopAll_le_iff.mpr hnames
  have htype : type.stop ≤ q := htype type List.mem_cons_self
  exact Nat.max_le.mpr ⟨Nat.zero_le _,
    Nat.max_le.mpr ⟨hlist, Nat.max_le.mpr ⟨htype, Nat.zero_le _⟩⟩⟩

end Rules

/-- A field ends before another begins if its names and its type do so. -/
theorem Tree.before_plainField {names names' : List Tree} {type type' : Tree}
    (h : ∀ x ∈ names ++ [type], ∀ y ∈ names' ++ [type'], x.Before y) :
    (Rules.plainField names type).Before (Rules.plainField names' type') := by
  obtain ⟨y, ys, heq⟩ := List.exists_cons_of_ne_nil (show names' ++ [type'] ≠ [] by simp)
  rw [heq] at h
  have hvalid : y.start.isValid = true := (h type (by simp) y List.mem_cons_self).1
  have hstart : (Rules.plainField names' type').start = y.start := by
    rw [Rules.start_plainField, heq, startAll_of_isValid hvalid]
  refine ⟨by rwa [hstart], ?_⟩
  rw [hstart]
  exact Rules.stop_plainField_le fun x hx => (h x hx y List.mem_cons_self).2

/-! ### Derivations -/

namespace Derives

variable {d : Dialect} {s : Phrase} {ws : List Word} {t : Tree}

/-- The items of a list are phrases, of which each ends before the next begins. -/
theorem inTurn_items (h : Derives d s ws t) (hs : s.isProper = true) (hplaced : ∀ w ∈ ws, w.Placed)
    (hws : Word.Separate d ws) : InTurn d ws t.items := by
  have left {vs us : List Word} (h : ∀ w ∈ vs ++ us, w.Placed) : ∀ w ∈ vs, w.Placed :=
    (List.forall_mem_append.mp h).1
  induction h with
  | ident | literal | dots | period | node | noDoc | none | empty | endedNil | linesNil =>
    exact .nil
  | doc g =>
    obtain ⟨-, hkind, -⟩ := hplaced _ List.mem_cons_self
    cases hg : g.tree with
    | node => exact .nil
    | _ =>
      rw [hg] at hkind
      cases hkind
  | cover hc _ ih => exact ih (hc.isProper hs) hplaced hws
  | behind _ _ ih =>
    have hrest :=
      ih hs (List.forall_mem_cons.mp hplaced).2 (hws.sublist (List.sublist_cons_self _ _))
    exact hrest.mono (List.sublist_cons_self _ _)
  | spread _ _ ih =>
    have hrest := ih rfl (left hplaced) (hws.sublist (List.sublist_append_left _ _))
    exact hrest.mono (List.sublist_append_left _ _)
  | endedComma _ _ ih | linesSemicolon _ _ ih =>
    have hrest := ih hs (left hplaced) (hws.sublist (List.sublist_append_left _ _))
    exact hrest.mono (List.sublist_append_left _ _)
  | one hn ht => exact .singleton ht hs (Phrase.isPresent_of_isNode hn)
  | firstName ht => exact .singleton ht rfl rfl
  | more hn _ ht ih _ | linesItem hn _ ht ih _ =>
    have hrest := ih hs (left hplaced) (hws.sublist (List.sublist_append_left _ _))
    exact hrest.append (.singleton ht hs (Phrase.isPresent_of_isNode hn)) hws
  | nextName _ _ ht ih _ =>
    have hrest := ih rfl (left hplaced) (hws.sublist (List.sublist_append_left _ _))
    exact hrest.append ((InTurn.singleton ht rfl rfl).mono (List.sublist_cons_self _ _)) hws
  | partsNil | word | noLineEnd | lineEnd | mark | markIn | unmarked | sub | const | args | targets
  | params => cases hs

/-- The names and types in a parameter list are phrases, of which each ends before the next
begins. -/
theorem inTurn_entries {es : List Rules.ParamEntry} (h : Derives d s ws t)
    (hs : Phrase.item? s = some .entry) (ht : t.items = es.map (·.field))
    (hws : Word.Separate d ws) :
    InTurn d ws (es.flatMap (·.parts)) := by
  have hentry {e : Rules.ParamEntry} {ws : List Word} (h : Derives d .entry ws e.field)
      (hws : Word.Separate d ws) : InTurn d ws e.parts := by
    obtain ⟨vs, us, s, rfl, hname, hs, htype⟩ := h.exists_of_entry
    have hnames : InTurn d vs e.name.toList := by
      cases hn : e.name with
      | none => exact .nil
      | some x => exact .singleton (hname x (by simp [hn])) rfl rfl
    rcases hs with rfl | rfl <;> exact hnames.append (.singleton htype rfl rfl) hws
  induction h generalizing es with
  | endedNil =>
    obtain rfl : es = [] := List.map_eq_nil_iff.mp ht.symm
    exact .nil
  | endedComma _ _ ih =>
    exact (ih hs ht (hws.sublist (List.sublist_append_left _ _))).mono
      (List.sublist_append_left _ _)
  | more _ _ hlast ih _ =>
    cases hs
    obtain ⟨es, es', rfl, hes, hes'⟩ := List.map_eq_append_iff.mp ht.symm
    obtain ⟨e, rfl, rfl⟩ := List.map_eq_singleton_iff.mp hes'
    rw [List.flatMap_append, List.flatMap_singleton]
    exact (ih rfl hes.symm (hws.sublist (List.sublist_append_left _ _))).append
      (hentry hlast (hws.sublist (List.sublist_append_right _ _))) hws
  | cover hc _ ih =>
    cases hc with
    | trailingEnded | trailingMore => exact ih hs ht hws
    | _ => cases hs
  | node hr => cases hr <;> cases hs
  | _ => cases hs

/-- The fields of a parameter list of code stand apart. -/
theorem before_params {es : List Rules.ParamEntry} {fs : List Tree}
    (h : Derives .code (.trailing .entry) ws (.list (es.map (·.field))))
    (hplaced : ∀ w ∈ ws, w.Placed) (hws : Word.Separate .code ws)
    (hfields : Rules.fieldsOfEntries es = .ok fs) :
    fs.Pairwise Tree.Before := by
  have hparts := (h.inTurn_entries rfl rfl hws).before
  rw [← Rules.parts_fieldsOfEntries hfields (h.isKind_dots_entry hplaced)] at hparts
  have hform := Rules.forall_fieldsOfEntries (P := fun _ => True) (Q := fun _ => True)
    (fun _ _ _ => trivial) hfields (fun _ _ => ⟨fun _ _ => trivial, trivial⟩)
  refine (List.pairwise_flatMap.mp hparts).2.imp_of_mem fun {a b} ha hb hbefore => ?_
  obtain ⟨names, type, rfl, -⟩ := hform a ha
  obtain ⟨names', type', rfl, -⟩ := hform b hb
  exact Tree.before_plainField hbefore

end Derives

/-- Whether the items of the lists in the fields of a node stand apart. -/
def Node.Apart (n : Node) : Prop := ∀ x ∈ n.fields, x.items.Pairwise Tree.Before

/-- A node without lists. -/
theorem Node.Apart.leaf {n : Node} (h : ∀ x ∈ n.fields, x.items = []) : n.Apart := by
  intro x hx
  rw [h x hx]
  exact .nil

namespace Derives

variable {s : Phrase} {ws : List Word} {t : Tree}

/-- The items of the lists in the fields of a row stand apart. -/
theorem apart_fields (h : Derives .code s ws t) (hs : s.isParts = true) (hbare : s.isBare = true)
    (hplaced : ∀ w ∈ ws, w.Placed) (hws : Word.Separate .code ws) :
    ∀ x ∈ t.items, x.items.Pairwise Tree.Before := by
  have tail {v : Word} {us : List Word} (h : ∀ w ∈ v :: us, w.Placed) : ∀ w ∈ us, w.Placed :=
    (List.forall_mem_cons.mp h).2
  have left {vs us : List Word} (h : ∀ w ∈ vs ++ us, w.Placed) : ∀ w ∈ vs, w.Placed :=
    (List.forall_mem_append.mp h).1
  have right {vs us : List Word} (h : ∀ w ∈ vs ++ us, w.Placed) : ∀ w ∈ us, w.Placed :=
    (List.forall_mem_append.mp h).2
  have htail {v : Word} {us : List Word} (h : Word.Separate .code (v :: us)) :
      Word.Separate .code us :=
    h.sublist (List.sublist_cons_self _ _)
  have hleft {vs us : List Word} (h : Word.Separate .code (vs ++ us)) : Word.Separate .code vs :=
    h.sublist (List.sublist_append_left _ _)
  have hright {vs us : List Word} (h : Word.Separate .code (vs ++ us)) : Word.Separate .code us :=
    h.sublist (List.sublist_append_right _ _)
  induction h with
  | partsNil => nofun
  | word _ _ ih | lineEnd _ _ ih => exact ih rfl hbare (tail hplaced) (htail hws)
  | noLineEnd _ ih => exact ih rfl hbare hplaced hws
  | mark _ _ ih => exact List.forall_mem_cons.mpr ⟨.nil, ih rfl hbare (tail hplaced) (htail hws)⟩
  | markIn _ _ ih =>
    have hrest := ih rfl hbare (tail hplaced) (htail hws)
    exact List.forall_mem_cons.mpr ⟨.nil, List.forall_mem_cons.mpr ⟨.nil, hrest⟩⟩
  | unmarked _ ih =>
    have hrest := ih rfl hbare hplaced hws
    exact List.forall_mem_cons.mpr ⟨.nil, List.forall_mem_cons.mpr ⟨.nil, hrest⟩⟩
  | const _ ih =>
    obtain ⟨hsilent, hrest⟩ := (Bool.and_eq_true _ _).mp hbare
    refine List.forall_mem_cons.mpr ⟨?_, ih rfl hrest hplaced hws⟩
    rw [(Part.isBare_const hsilent).2.2]
    exact .nil
  | sub hx _ _ ih =>
    obtain ⟨hsub, hrest⟩ := (Bool.and_eq_true _ _).mp hbare
    refine List.forall_mem_cons.mpr ⟨?_, ih rfl hrest (right hplaced) (hright hws)⟩
    exact (hx.inTurn_items hsub (left hplaced) (hleft hws)).before
  | args hxs _ _ _ ih =>
    have hrest := ih rfl hbare (right hplaced) (hright hws)
    have hlist := (hxs.inTurn_items rfl (left hplaced) (hleft hws)).before
    exact List.forall_mem_cons.mpr ⟨hlist, List.forall_mem_cons.mpr ⟨.nil, hrest⟩⟩
  | @targets _ _ _ xs _ hxs _ _ ih =>
    have hrest := ih rfl hbare (right hplaced) (hright hws)
    have htarget (i : Nat) : (xs[i]?.getD .nil).items.Pairwise Tree.Before := by
      cases hx : xs[i]? with
      | none => exact .nil
      | some x =>
        obtain ⟨vs, hvs, hderives⟩ := hxs.exists_of_mem_items rfl x (List.mem_of_getElem? hx)
        exact (hderives.inTurn_items rfl (fun w hw => left hplaced w (hvs.subset hw))
          ((hleft hws).sublist hvs)).before
    exact List.forall_mem_cons.mpr ⟨htarget 0, List.forall_mem_cons.mpr ⟨htarget 1, hrest⟩⟩
  | params hes hfields _ _ ih =>
    have hparams := hes.before_params (left hplaced) (hleft hws) hfields
    exact List.forall_mem_cons.mpr ⟨hparams, ih rfl hbare (right hplaced) (hright hws)⟩
  | cover hc => cases hc <;> cases hs
  | node hr => cases hr <;> cases hs
  | _ => cases hs

/-- **The items of every list of a tree of code stand apart.** -/
theorem apart (h : Derives .code s ws t) (hs : s.isBare = true) (hplaced : ∀ w ∈ ws, w.Placed)
    (hws : Word.Separate .code ws) (hdocs : ∀ g, .doc g ∈ ws → ∀ n ∈ g.tree.nodes, n.Apart) :
    ∀ n ∈ t.nodes, n.Apart := by
  have hident {p : Pos} {name : String} : Node.Apart ⟨.ident, [.pos p, .str name]⟩ :=
    .leaf (List.forall_mem_cons.mpr ⟨rfl, List.forall_mem_singleton.mpr rfl⟩)
  refine h.forall_nodes_of_sublists
    (Q := fun ws => (∀ w ∈ ws, w.Placed) ∧ Word.Separate .code ws ∧
      ∀ g, .doc g ∈ ws → ∀ n ∈ g.tree.nodes, n.Apart) ?_ (fun _ _ => hident) (fun _ _ => hident) ?_
    (fun hd => by cases hd) ?_ ?_ (fun hg => hg.2.2 _ List.mem_cons_self) hs ⟨hplaced, hws, hdocs⟩
  · rintro vs ws hsub ⟨hplaced, hws, hdocs⟩
    exact ⟨fun w hw => hplaced w (hsub.subset hw), hws.sublist hsub,
      fun g hg => hdocs g (hsub.subset hg)⟩
  · exact fun _ _ => .leaf (List.forall_mem_cons.mpr
      ⟨rfl, List.forall_mem_cons.mpr ⟨rfl, List.forall_mem_singleton.mpr rfl⟩⟩)
  · intro ws es fs hes hws hfields names type hmem
    have hsub := Rules.sublist_of_mem_fieldsOfEntries hfields hmem
    have hparts := (hes.inTurn_entries rfl rfl hws.2.1).before.sublist hsub
    have htype : type.items = [] := by
      obtain ⟨s, vs, hs, hvs, htype⟩ := hes.exists_of_mem_entries
        (hsub.subset (List.mem_append_right _ List.mem_cons_self))
      have hvs (w : Word) (hw : w ∈ vs) := hws.1 w (hvs.subset hw)
      have hcode : type.isCode = true := by
        rcases hs with rfl | rfl <;> exact (htype.isCode hvs rfl).1 rfl
      obtain ⟨k, gs, rfl, -⟩ := Tree.exists_of_isCode hcode
      rfl
    refine List.forall_mem_cons.mpr ⟨.nil, List.forall_mem_cons.mpr
      ⟨hparts.sublist (List.sublist_append_left _ _), List.forall_mem_cons.mpr ⟨?_, ?_⟩⟩⟩
    · rw [htype]
      exact .nil
    · exact List.forall_mem_singleton.mpr .nil
  · intro s k ps ws ts hr hp hbare hws
    exact hp.apart_fields rfl hbare hws.1 hws.2.1

end Derives

end Graft
