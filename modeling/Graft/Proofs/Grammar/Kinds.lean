import Graft.Proofs.Grammar.Schema
import Graft.Proofs.Tree.Conforms

/-! # The kinds of nodes that phrases are

The schema says for each field which category of nodes it holds, the grammar says for each part of a
row which sort of phrase is read.  `Phrase.kinds` lists the kinds of nodes that phrases of a sort
are, so that the two can be compared: a part is taken by a field if all kinds that it may be are
admitted there (`Part.taken`), and then what is read for it can be held by the field
(`Derives.holds_parts`).

Which kinds a field admits is left open, as the predicate `p`.
-/

namespace Graft

/-- The kinds of nodes in a category. -/
def Category.kinds (c : Category) : List Kind := Kind.all.filter (·.isA c)

/-- The kinds of nodes that types are. -/
def Kind.types : List Kind :=
  [.ident, .selectorExpr, .starExpr, .parenExpr, .arrayType, .mapType, .structType, .interfaceType,
    .funcType]

namespace Phrase

/-- The kinds of nodes that phrases of a sort are; none for sorts whose trees are no nodes. -/
def kinds : Phrase → List Kind
  | ident | importName => [.ident]
  | literal => [.basicLit]
  | dots => [.dots]
  | type => Kind.types
  | typeLit => [.arrayType, .mapType, .structType, .interfaceType]
  | funcType | signature => [.funcType]
  | paramType => .ellipsis :: Kind.types
  | params | results | members _ => [.fieldList]
  | entry | bareField | structField | interfaceField => [.field]
  | member s => .field :: s.kinds
  | arrayLength | operand | primary | unary | binary _ | arg | element | elementValue =>
    Category.expr.kinds
  | spec _ => Category.spec.kinds
  | declaration => [.genDecl]
  | decl => Category.decl.kinds
  | block | switchBody => [.blockStmt]
  | ifStmt => [.ifStmt]
  | simple | stmt | elseBody => Category.stmt.kinds
  | clause => Category.clause.kinds
  | doc | opt _ | orEmpty _ | one _ | ended _ | more _ | trailing _ | lines _ | behind _ _
  | fieldNames
  | parts _ => []

variable (p : Kind → Bool)

/-- Whether phrases of a sort are nothing or a node of an admitted kind. -/
def isOf : Phrase → Bool
  | opt s | behind _ s => s.isOf
  | s => s.isNode && s.kinds.all p

/-- Whether phrases of a sort are lists of nodes of admitted kinds. -/
def areOf : Phrase → Bool
  | orEmpty s | behind _ s => s.areOf
  | one s | ended s | more s | trailing s | lines s => s.kinds.all p
  | fieldNames => Kind.types.all p
  | _ => false

end Phrase

theorem Row.kind_mem {s : Phrase} {k : Kind} {ps : List Part} (h : Row s k ps) : k ∈ s.kinds := by
  cases h with
  | members | dotsMember => exact List.mem_cons_self
  | binary =>
    show Kind.binaryExpr ∈ Category.expr.kinds
    decide
  | valueSpec =>
    show Kind.valueSpec ∈ Category.spec.kinds
    decide
  | _ => decide

theorem Covers.kinds_subset {s s' : Phrase} (h : Covers s s') (hs : s.isNode = true) :
    s'.kinds ⊆ s.kinds := by
  cases h with
  | member s => exact List.subset_cons_self _ _
  | specDots =>
    show Phrase.dots.kinds ⊆ Category.spec.kinds
    decide
  | binary => exact List.Subset.refl _
  | opt | orEmpty | trailingEnded | trailingMore => cases hs
  | _ => decide

namespace Derives

variable {p : Kind → Bool} {d : Dialect} {s : Phrase} {ws : List Word} {t : Tree}

/-- **A phrase is a node of one of the kinds of its sort.** -/
theorem exists_kind (h : Derives d s ws t) (hs : s.isNode = true) :
    ∃ k fs, t = .node k fs ∧ k ∈ s.kinds := by
  induction h with
  | ident | literal | dots | period => exact ⟨_, _, rfl, List.mem_cons_self⟩
  | cover hc _ ih =>
    obtain ⟨k, fs, rfl, hk⟩ := ih (hc.isNode hs)
    exact ⟨k, fs, rfl, hc.kinds_subset hs hk⟩
  | node hr => exact ⟨_, _, rfl, hr.kind_mem⟩
  | spread _ _ ih => exact ih rfl
  | _ => cases hs

theorem exists_of_all (h : Derives d s ws t) (hs : s.isNode = true) (hp : s.kinds.all p = true) :
    ∃ k fs, t = .node k fs ∧ p k = true := by
  obtain ⟨k, fs, rfl, hk⟩ := h.exists_kind hs
  exact ⟨k, fs, rfl, List.all_eq_true.mp hp k hk⟩

/-- What is read as an expression is one. -/
theorem isExpr (h : Derives d .expr ws t) : ∃ k fs, t = .node k fs ∧ k.isA .expr = true := by
  obtain ⟨k, fs, rfl, hk⟩ := h.exists_kind rfl
  exact ⟨k, fs, rfl, (List.mem_filter.mp hk).2⟩

theorem isOf (h : Derives d s ws t) (hs : s.isOf p = true) :
    t = .nil ∨ ∃ k fs, t = .node k fs ∧ p k = true := by
  -- all sorts but two are those of nodes
  have hnode {s : Phrase} {ws : List Word} {t : Tree} (h : Derives d s ws t)
      (hs : (s.isNode && s.kinds.all p) = true) : t = .nil ∨ ∃ k fs, t = .node k fs ∧
      p k = true := by
    obtain ⟨hn, hp⟩ := (Bool.and_eq_true _ _).mp hs
    exact .inr (h.exists_of_all hn hp)
  induction h with
  | none => exact .inl rfl
  | behind _ _ ih => exact ih hs
  | cover hc h ih =>
    cases hc with
    | opt => exact ih hs
    | _ => exact hnode (.cover (by constructor) h) hs
  | node hr h =>
    refine hnode (.node hr h) ?_
    cases hr <;> exact hs
  | spread h hl => exact hnode (.spread h hl) hs
  | ident hl => exact hnode (.ident hl) hs
  | literal hl => exact hnode (.literal hl) hs
  | dots hd hl => exact hnode (.dots hd hl) hs
  | period hl => exact hnode (.period hl) hs
  | _ => cases hs

/-- The items of a list are nodes of admitted kinds. -/
theorem areOf (h : Derives d s ws t) (hs : s.areOf p = true) :
    ∃ ts, t = .list ts ∧ ∀ x ∈ ts, ∃ k fs, x = .node k fs ∧ p k = true := by
  induction h with
  | empty | endedNil | linesNil => exact ⟨[], rfl, nofun⟩
  | behind _ _ ih => exact ih hs
  | endedComma _ _ ih | linesSemicolon _ _ ih => exact ih hs
  | one hn h => exact ⟨_, rfl, List.forall_mem_singleton.mpr (h.exists_of_all hn hs)⟩
  | more hn _ h ih _ | linesItem hn _ h ih _ =>
    obtain ⟨ts, heq, hts⟩ := ih hs
    cases heq
    exact ⟨_, rfl, List.forall_mem_append.mpr
      ⟨hts, List.forall_mem_singleton.mpr (h.exists_of_all hn hs)⟩⟩
  | firstName h => exact ⟨_, rfl, List.forall_mem_singleton.mpr (h.exists_of_all rfl hs)⟩
  | nextName _ _ h ih _ =>
    obtain ⟨ts, heq, hts⟩ := ih hs
    cases heq
    have hident : [Kind.ident].all p = true := by
      rw [List.all_cons, List.all_eq_true.mp hs .ident (by decide)]
      rfl
    exact ⟨_, rfl, List.forall_mem_append.mpr
      ⟨hts, List.forall_mem_singleton.mpr (h.exists_of_all rfl hident)⟩⟩
  | cover hc _ ih =>
    cases hc with
    | orEmpty | trailingEnded | trailingMore => exact ih hs
    | _ => cases hs
  | node hr => cases hr <;> cases hs
  | _ => cases hs

end Derives

/-! ### Fields -/

namespace Slot

/-- Whether a value may stand in a slot, where `p` says which kinds of nodes may. -/
def holds (p : Kind → Bool) : Slot → Tree → Bool
  | .pos _, .pos _ | .str, .str _ | .token, .tok _ => true
  | .node _, .nil | .doc, .nil => true
  | .node _, .node k _ | .doc, .node k _ => p k
  | .list _, .list ts => ts.all fun t => (t.kind?.map p).getD false
  | _, _ => false

/-- The kinds of nodes that a slot asks for. -/
def admits : Slot → Kind → Bool
  | .node c, k | .list c, k => k.isA c
  | .doc, k => k == .commentGroup
  | _, _ => false

theorem accepts_eq_holds (s : Slot) (t : Tree) : s.accepts t = s.holds s.admits t := by
  cases s <;> cases t <;> rfl

theorem holds_list {p : Kind → Bool} {c : Category} {ts : List Tree} :
    (Slot.list c).holds p (.list ts) = true ↔ ∀ x ∈ ts, ∃ k fs, x = .node k fs ∧ p k = true := by
  simp only [holds, List.all_eq_true]
  refine forall₂_congr fun x _ => ?_
  cases x <;> simp [Tree.kind?]

/-- Whether a slot can hold all phrases of a sort, where `p` says which kinds of nodes may stand
there. -/
def takes (p : Kind → Bool) : Slot → Phrase → Bool
  | .node _, s => s.isOf p
  | .list _, s => s.areOf p
  | .doc, .doc => p .commentGroup
  | _, _ => false

/-- Whether a slot is one for positions. -/
def isPos : Slot → Bool
  | .pos _ => true
  | _ => false

/-- Whether a slot is one for lists. -/
def isList : Slot → Bool
  | .list _ => true
  | _ => false

/-- Whether a slot is one for nodes. -/
def isNode : Slot → Bool
  | .node _ => true
  | _ => false

theorem holds_pos {p : Kind → Bool} {slot : Slot} {q : Pos} (h : slot.isPos = true) :
    slot.holds p (.pos q) = true := by
  cases slot with
  | pos => rfl
  | _ => cases h

theorem holds_node {p : Kind → Bool} {slot : Slot} {t : Tree} (h : slot.isNode = true)
    (ht : t = .nil ∨ ∃ k fs, t = .node k fs ∧ p k = true) : slot.holds p t = true := by
  cases slot with
  | node c =>
    rcases ht with rfl | ⟨k, fs, rfl, hk⟩
    · rfl
    · exact hk
  | _ => cases h

theorem holds_items {p : Kind → Bool} {slot : Slot} {ts : List Tree} (h : slot.isList = true)
    (hts : ∀ x ∈ ts, ∃ k fs, x = .node k fs ∧ p k = true) : slot.holds p (.list ts) = true := by
  cases slot with
  | list c => exact holds_list.mpr hts
  | _ => cases h

end Slot

/-- Whether some fields can hold what some parts stand for, where `p` says which kinds of nodes may
stand in a field. -/
def Part.taken (p : Field → Kind → Bool) : List Part → List Field → Bool
  | [], _ => true
  | .word _ :: ps, fs | .lineEnd :: ps, fs => taken p ps fs
  | .mark _ :: ps, f :: fs => f.slot.isPos && taken p ps fs
  | .markIn _ :: ps, f :: g :: fs | .unmarked :: ps, f :: g :: fs =>
    f.slot.isPos && g.slot == .token && taken p ps fs
  | .sub s :: ps, f :: fs => f.slot.takes (p f) s && taken p ps fs
  | .const t :: ps, f :: fs => f.slot.holds (p f) t && taken p ps fs
  | .args :: ps, f :: g :: fs =>
    f.slot.isList && (Phrase.trailing .arg).areOf (p f) && g.slot.isPos && taken p ps fs
  | .targets :: ps, f :: g :: fs =>
    f.slot.isNode && Phrase.expr.kinds.all (p f) &&
      (g.slot.isNode && Phrase.expr.kinds.all (p g)) &&
      taken p ps fs
  | .params :: ps, f :: fs => f.slot.isList && p f .field && taken p ps fs
  | _, _ => false

/-- Whether the comments above nodes are groups of comments. -/
def Word.DocsAreGroups (ws : List Word) : Prop :=
  ∀ g, .doc g ∈ ws → g.tree.isKind .commentGroup = true

namespace Derives

variable {d : Dialect} {s : Phrase} {ws : List Word} {t : Tree}

theorem holds {p : Kind → Bool} {slot : Slot} (h : Derives d s ws t) (hws : Word.DocsAreGroups ws)
    (hs : slot.takes p s = true) : slot.holds p t = true := by
  cases slot with
  | node c => exact Slot.holds_node rfl (h.isOf hs)
  | list c =>
    obtain ⟨ts, rfl, hts⟩ := h.areOf hs
    exact Slot.holds_list.mpr hts
  | doc =>
    cases s with
    | doc =>
      cases h with
      | noDoc => rfl
      | doc g =>
        have hkind := hws g List.mem_cons_self
        cases ht : g.tree with
        | node k fs =>
          rw [ht] at hkind
          obtain rfl : k = .commentGroup := by simpa [Tree.isKind, Tree.kind?] using hkind
          exact hs
        | _ =>
          rw [ht] at hkind
          cases hkind
      | cover hc => cases hc
      | node hr => cases hr
    | _ => cases hs
  | pos | str | token => cases hs

/-- **What is read for some parts can be held by the fields that take them.** -/
theorem holds_parts {p : Field → Kind → Bool} {ps : List Part} {ts : List Tree} {fs : List Field}
    (h : Derives d (.parts ps) ws (.list ts)) (hws : Word.DocsAreGroups ws)
    (hfs : Part.taken p ps fs = true) : ∀ x ∈ fs.zip ts, x.1.slot.holds (p x.1) x.2 = true := by
  have left {vs us : List Word} (h : Word.DocsAreGroups (vs ++ us)) : Word.DocsAreGroups vs :=
    fun g hg => h g (List.mem_append_left _ hg)
  have right {vs us : List Word} (h : Word.DocsAreGroups (vs ++ us)) : Word.DocsAreGroups us :=
    fun g hg => h g (List.mem_append_right _ hg)
  have tail {v : Word} {us : List Word} (h : Word.DocsAreGroups (v :: us)) :
      Word.DocsAreGroups us :=
    fun g hg => h g (List.mem_cons_of_mem _ hg)
  -- the first field, or the first two, and those behind
  have hcons {f : Field} {t : Tree} {fs : List Field} {ts : List Tree}
      (ht : f.slot.holds (p f) t = true)
      (hts : ∀ x ∈ fs.zip ts, x.1.slot.holds (p x.1) x.2 = true) :
      ∀ x ∈ (f :: fs).zip (t :: ts), x.1.slot.holds (p x.1) x.2 = true :=
    List.forall_mem_cons.mpr ⟨ht, hts⟩
  generalize hs : Phrase.parts ps = s at h
  generalize ht : Tree.list ts = t at h
  induction h generalizing ps ts fs with
  | partsNil =>
    cases hs
    cases ht
    simp
  | word _ _ ih | lineEnd _ _ ih =>
    cases hs
    cases ht
    refine ih (tail hws) ?_ rfl rfl
    exact hfs
  | noLineEnd _ ih =>
    cases hs
    cases ht
    refine ih hws ?_ rfl rfl
    exact hfs
  | mark _ _ ih =>
    cases hs
    cases ht
    match fs, hfs with
    | f :: fs, hfs =>
      obtain ⟨hf, hfs⟩ := (Bool.and_eq_true _ _).mp hfs
      exact hcons (Slot.holds_pos hf) (ih (tail hws) hfs rfl rfl)
  | markIn _ _ ih =>
    cases hs
    cases ht
    match fs, hfs with
    | f :: g :: fs, hfs =>
      simp only [Part.taken, Bool.and_eq_true, beq_iff_eq] at hfs
      obtain ⟨⟨hf, hg⟩, hfs⟩ := hfs
      refine hcons (Slot.holds_pos hf) (hcons ?_ (ih (tail hws) hfs rfl rfl))
      rw [hg]
      rfl
  | unmarked _ ih =>
    cases hs
    cases ht
    match fs, hfs with
    | f :: g :: fs, hfs =>
      simp only [Part.taken, Bool.and_eq_true, beq_iff_eq] at hfs
      obtain ⟨⟨hf, hg⟩, hfs⟩ := hfs
      refine hcons (Slot.holds_pos hf) (hcons ?_ (ih hws hfs rfl rfl))
      rw [hg]
      rfl
  | sub h _ _ ih =>
    cases hs
    cases ht
    match fs, hfs with
    | f :: fs, hfs =>
      obtain ⟨hf, hfs⟩ := (Bool.and_eq_true _ _).mp hfs
      exact hcons (h.holds (left hws) hf) (ih (right hws) hfs rfl rfl)
  | const _ ih =>
    cases hs
    cases ht
    match fs, hfs with
    | f :: fs, hfs =>
      obtain ⟨hf, hfs⟩ := (Bool.and_eq_true _ _).mp hfs
      exact hcons hf (ih hws hfs rfl rfl)
  | args h _ _ _ ih =>
    cases hs
    cases ht
    match fs, hfs with
    | f :: g :: fs, hfs =>
      simp only [Part.taken, Bool.and_eq_true] at hfs
      obtain ⟨⟨⟨hf, hargs⟩, hg⟩, hfs⟩ := hfs
      obtain ⟨xs, heq, hxs⟩ := h.areOf hargs
      cases heq
      exact hcons (Slot.holds_items hf hxs) (hcons (Slot.holds_pos hg) (ih (right hws) hfs rfl rfl))
  | @targets _ _ _ xs _ h _ _ ih =>
    cases hs
    cases ht
    match fs, hfs with
    | f :: g :: fs, hfs =>
      simp only [Part.taken, Bool.and_eq_true] at hfs
      obtain ⟨⟨⟨hf, hpf⟩, hg, hpg⟩, hfs⟩ := hfs
      have htarget (i : Nat) {p : Kind → Bool} (hp : Phrase.expr.kinds.all p = true) :
          xs[i]?.getD .nil = .nil ∨ ∃ k fs, xs[i]?.getD .nil = .node k fs ∧ p k = true := by
        obtain ⟨ys, heq, hxs⟩ := h.areOf (p := p) hp
        cases heq
        cases hx : xs[i]? with
        | none => exact .inl rfl
        | some x => exact .inr (hxs x (List.mem_of_getElem? hx))
      exact hcons (Slot.holds_node hf (htarget 0 hpf)) (hcons (Slot.holds_node hg (htarget 1 hpg))
        (ih (right hws) hfs rfl rfl))
  | params _ hentries _ _ ih =>
    cases hs
    cases ht
    match fs, hfs with
    | f :: fs, hfs =>
      simp only [Part.taken, Bool.and_eq_true] at hfs
      obtain ⟨⟨hf, hfield⟩, hfs⟩ := hfs
      refine hcons (Slot.holds_items hf fun x hx => ?_) (ih (right hws) hfs rfl rfl)
      obtain ⟨names, type, rfl, -⟩ := Rules.forall_fieldsOfEntries (P := fun _ => True)
        (Q := fun _ => True) (fun _ _ _ => trivial) hentries
        (fun _ _ => ⟨fun _ _ => trivial, trivial⟩) x hx
      exact ⟨_, _, rfl, hfield⟩
  | cover hc =>
    cases hs
    cases hc
  | node hr =>
    cases hs
    cases hr
  | _ => cases hs

end Derives

end Graft
