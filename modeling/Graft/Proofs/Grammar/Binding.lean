import Graft.Proofs.Grammar.Schema

/-! # How tightly expressions bind

No node records the parentheses that an expression would need: a parenthesised expression is a node
of its own.  So an operator can only have operands that bind at least as tightly as it asks, and a
tree is *well bound* (`Tree.wellBound`) when all operators in it have such operands.

Trees can be built that are not, but none is ever read: the words of an expression are grouped by
the precedence of its operators, and a well bound tree comes out (`Derives.wellBound`).
-/

namespace Graft

/-- Whether a node of the kind is its first field and something behind it. -/
def Kind.isSuffix : Kind → Bool
  | .selectorExpr | .indexExpr | .sliceExpr | .typeAssertExpr | .callExpr | .compositeLit => true
  | _ => false

theorem Token.precedence_le (t : Token) : t.precedence ≤ 5 := by
  cases t <;> decide

namespace Tree

/-- How tightly a tree holds together: as its outermost operator does, if it has one. -/
def tightness : Tree → Nat
  | node .binaryExpr [_, _, tok op, _] => op.precedence
  | node .unaryExpr [_, tok _, _] => 6
  | node .starExpr [_, _] => 6
  | _ => 7

/-- Whether the operands of the outermost operator bind as tightly as it asks.  Operators of the
same precedence group to the left. -/
def binds : Tree → Bool
  | node .binaryExpr [x, _, tok op, y] => op.precedence ≤ x.tightness && op.precedence < y.tightness
  | node .unaryExpr [_, tok _, x] => 6 ≤ x.tightness
  | node .starExpr [_, x] => 6 ≤ x.tightness
  | node k (x :: _) => !k.isSuffix || 7 ≤ x.tightness
  | _ => true

mutual

/-- Whether all operators have operands that bind as tightly as they ask. -/
def wellBound : Tree → Bool
  | list ts => wellBoundAll ts
  | node k fs => (node k fs).binds && wellBoundAll fs
  | _ => true

/-- Whether all trees of a list are well bound. -/
def wellBoundAll : List Tree → Bool
  | [] => true
  | t :: ts => t.wellBound && wellBoundAll ts

end

theorem wellBoundAll_iff {ts : List Tree} :
    wellBoundAll ts = true ↔ ∀ t ∈ ts, t.wellBound = true := by
  induction ts with
  | nil => simp [wellBoundAll]
  | cons t ts ih => simp [wellBoundAll, ih]

theorem wellBound_list {ts : List Tree} :
    (list ts).wellBound = true ↔ ∀ t ∈ ts, t.wellBound = true := wellBoundAll_iff

theorem wellBound_node {k : Kind} {fs : List Tree} :
    (node k fs).wellBound = true ↔ (node k fs).binds = true ∧ ∀ t ∈ fs, t.wellBound = true := by
  rw [← wellBoundAll_iff, ← Bool.and_eq_true]
  rfl

/-- A parameter is well bound if its names and its type are. -/
theorem wellBound_field {names : List Tree} {type : Tree} :
    (Rules.plainField names type).wellBound = true ↔
      (∀ x ∈ names, x.wellBound = true) ∧ type.wellBound = true := by
  have hbinds : (node .field [nil, list names, type, nil]).binds = true := rfl
  have hnil : nil.wellBound = true := rfl
  simp [Rules.plainField, wellBound_node, wellBound_list, hbinds, hnil]

end Tree

/-! ### Phrases -/

/-- How tightly the trees of a sort of phrase hold together at least. -/
def Phrase.tightness : Phrase → Nat
  | .ident | .literal | .dots | .typeLit | .funcType | .operand | .primary => 7
  | .type | .unary => 6
  | .binary n => min n 6
  | _ => 0

theorem Phrase.tightness_le (s : Phrase) : s.tightness ≤ 7 := by
  cases s with
  | binary n => exact Nat.le_trans (Nat.min_le_right n 6) (by decide)
  | _ => simp [tightness]

theorem Covers.tightness_le {s s' : Phrase} (h : Covers s s') : s.tightness ≤ s'.tightness := by
  cases h with
  | binary n => exact Nat.min_le_right n 6
  | _ => simp [Phrase.tightness]

/-- What the parts of a node say about how tightly its fields hold together. -/
def Part.Bind : List Part → List Tree → Prop
  | [], ts => ts = []
  | .word _ :: ps, ts | .lineEnd :: ps, ts => Bind ps ts
  | .mark _ :: ps, _ :: ts | .params :: ps, _ :: ts => Bind ps ts
  | .markIn toks :: ps, _ :: t :: ts => (∃ op ∈ toks, t = .tok op) ∧ Bind ps ts
  | .unmarked :: ps, _ :: _ :: ts | .args :: ps, _ :: _ :: ts | .targets :: ps, _ :: _ :: ts =>
    Bind ps ts
  | .sub s :: ps, t :: ts => s.tightness ≤ t.tightness ∧ Bind ps ts
  | .const c :: ps, t :: ts => t = c ∧ Bind ps ts
  | _, _ => False

/-- Whether the subtrees of a part are trees, and a field without words is well bound. -/
def Part.isPlain : Part → Bool
  | .sub s => s.isProper
  | .const t => t.wellBound
  | _ => true

namespace Part.Bind

variable {ps : List Part} {ts : List Tree}

theorem of_sub {s : Phrase} (h : Bind (.sub s :: ps) ts) :
    ∃ t ts', ts = t :: ts' ∧ s.tightness ≤ t.tightness ∧ Bind ps ts' := by
  cases ts with
  | nil => cases h
  | cons t ts => exact ⟨t, ts, rfl, h⟩

theorem of_mark {tok : Token} (h : Bind (.mark tok :: ps) ts) :
    ∃ p ts', ts = p :: ts' ∧ Bind ps ts' := by
  cases ts with
  | nil => cases h
  | cons p ts => exact ⟨p, ts, rfl, h⟩

theorem of_markIn {toks : List Token} (h : Bind (.markIn toks :: ps) ts) :
    ∃ p, ∃ op ∈ toks, ∃ ts', ts = p :: .tok op :: ts' ∧ Bind ps ts' := by
  match ts, h with
  | p :: _ :: ts, ⟨⟨op, hop, rfl⟩, h⟩ => exact ⟨p, op, hop, ts, rfl, h⟩

end Part.Bind

namespace Tree

variable {k : Kind} {ts : List Tree}

theorem tightness_binary (x p : Tree) (op : Token) (y : Tree) :
    (node .binaryExpr [x, p, tok op, y]).tightness = op.precedence := rfl

theorem binds_binary {x p : Tree} {op : Token} {y : Tree} :
    (node .binaryExpr [x, p, tok op, y]).binds = true ↔
      op.precedence ≤ x.tightness ∧ op.precedence < y.tightness := by
  simp [binds]

/-- Only operators loosen what they are in. -/
theorem tightness_node (hbinary : k ≠ .binaryExpr) (hunary : k ≠ .unaryExpr)
    (hstar : k ≠ .starExpr) :
    (node k ts).tightness = 7 := by
  unfold tightness
  split <;> simp_all

theorem binds_suffix {x : Tree} (h : k.isSuffix = true) :
    (node k (x :: ts)).binds = true ↔ 7 ≤ x.tightness := by
  cases k <;> first | exact decide_eq_true_iff | cases h

theorem binds_node (hbinary : k ≠ .binaryExpr) (hunary : k ≠ .unaryExpr) (hstar : k ≠ .starExpr)
    (h : k.isSuffix = true → ∀ x ∈ ts.head?, 7 ≤ x.tightness) : (node k ts).binds = true := by
  cases ts with
  | nil =>
    unfold binds
    split <;> simp_all
  | cons x ts =>
    cases hsuffix : k.isSuffix with
    | false =>
      unfold binds
      split <;> simp_all
    | true => exact (binds_suffix hsuffix).mpr (h hsuffix x rfl)

end Tree

/-- **The operands of every node of the grammar bind as tightly as its operator asks.** -/
theorem Row.binds {s : Phrase} {k : Kind} {ps : List Part} {ts : List Tree} (h : Row s k ps)
    (hts : Part.Bind ps ts) :
    s.tightness ≤ (Tree.node k ts).tightness ∧ (Tree.node k ts).binds = true := by
  by_cases hop : k = .binaryExpr ∨ k = .unaryExpr ∨ k = .starExpr
  · cases h with
    | prefixed =>
      obtain ⟨p, op, -, ts, rfl, hrest⟩ := hts.of_markIn
      obtain ⟨x, ts, rfl, hx, rfl⟩ := hrest.of_sub
      exact ⟨Nat.le_refl 6, decide_eq_true hx⟩
    | pointer | deref =>
      obtain ⟨p, ts, rfl, hrest⟩ := hts.of_mark
      obtain ⟨x, ts, rfl, hx, rfl⟩ := hrest.of_sub
      exact ⟨Nat.le_refl 6, decide_eq_true hx⟩
    | @binary n op hn _ =>
      obtain ⟨x, ts, rfl, hx, hrest⟩ := hts.of_sub
      obtain ⟨p, op', hop', ts, rfl, hright⟩ := hrest.of_markIn
      cases List.mem_singleton.mp hop'
      obtain ⟨y, ts, rfl, hy, rfl⟩ := hright.of_sub
      have hop : op.precedence ≤ 5 := op.precedence_le
      rw [Phrase.tightness] at hx hy
      rw [Phrase.tightness, Tree.tightness_binary, Tree.binds_binary]
      omega
    | _ => simp at hop
  · simp only [not_or] at hop
    obtain ⟨hbinary, hunary, hstar⟩ := hop
    rw [Tree.tightness_node hbinary hunary hstar]
    refine ⟨s.tightness_le, Tree.binds_node hbinary hunary hstar fun hsuffix x hx => ?_⟩
    cases h with
    | qualified | selector | typeAssert | index | slice | call | composite =>
      obtain ⟨t, ts, rfl, ht, -⟩ := hts.of_sub
      cases hx
      exact ht
    | bareLit =>
      match ts, hts with
      | _ :: _, ⟨rfl, _⟩ =>
        cases hx
        exact Nat.le_refl 7
    | _ => cases hsuffix

theorem Row.isPlain {s : Phrase} {k : Kind} {ps : List Part} (h : Row s k ps)
    (hs : s.isProper = true) : ∀ p ∈ ps, p.isPlain = true := by
  rw [← List.all_eq_true]
  cases h with
  | members s => simpa [Part.isPlain, Phrase.isProper] using hs
  | _ => rfl

namespace Derives

variable {d : Dialect} {s : Phrase} {ws : List Word} {t : Tree}

/-- What an induction over derivations shows of a tree: it is well bound and as tight as its sort of
phrase, and so are the fields of a node. -/
def Bound (s : Phrase) (t : Tree) : Prop :=
  (s.isProper = true → t.wellBound = true ∧ s.tightness ≤ t.tightness) ∧
  ∀ {ps ts}, s = .parts ps → t = .list ts → (∀ p ∈ ps, p.isPlain = true) →
    (∀ t ∈ ts, t.wellBound = true) ∧ Part.Bind ps ts

theorem Bound.of_tree (hs : ∀ ps, s ≠ .parts ps)
    (h : s.isProper = true → t.wellBound = true ∧ s.tightness ≤ t.tightness) : Bound s t :=
  ⟨h, fun heq => absurd heq (hs _)⟩

theorem Bound.of_list {ts : List Tree} (hs : ∀ ps, s ≠ .parts ps)
    (hts : s.isProper = true → ∀ t ∈ ts, t.wellBound = true) : Bound s (.list ts) :=
  .of_tree hs fun hproper => ⟨Tree.wellBound_list.mpr (hts hproper), s.tightness_le⟩

theorem Bound.items {ts : List Tree} (h : Bound s (.list ts)) (hs : s.isProper = true) :
    ∀ t ∈ ts, t.wellBound = true :=
  Tree.wellBound_list.mp (h.1 hs).1

/-- One more item is one more well bound tree. -/
theorem Bound.snoc {s' s'' : Phrase} {ts : List Tree} (h : Bound s' (.list ts)) (ht : Bound s'' t)
    (hs : ∀ ps, s ≠ .parts ps)
    (hs' : s.isProper = true → s'.isProper = true ∧ s''.isProper = true) :
    Bound s (.list (ts ++ [t])) := by
  refine .of_list hs fun hproper => List.forall_mem_append.mpr ?_
  exact ⟨h.items (hs' hproper).1, List.forall_mem_singleton.mpr (ht.1 (hs' hproper).2).1⟩

/-- The fields of a node are bound if those of its first part are and the others. -/
theorem Bound.cons {p : Part} {ps : List Part} {u ts : List Tree} (h : Bound (.parts ps) (.list ts))
    (hu : p.isPlain = true → (∀ t ∈ u, t.wellBound = true) ∧
      (Part.Bind ps ts → Part.Bind (p :: ps) (u ++ ts))) :
    Bound (.parts (p :: ps)) (.list (u ++ ts)) := by
  refine ⟨nofun, ?_⟩
  rintro _ _ ⟨⟩ ⟨⟩ hplain
  obtain ⟨hp, hps⟩ := List.forall_mem_cons.mp hplain
  obtain ⟨hts, hbind⟩ := h.2 rfl rfl hps
  exact ⟨List.forall_mem_append.mpr ⟨(hu hp).1, hts⟩, (hu hp).2 hbind⟩

theorem bound (h : Derives d s ws t) (hws : ∀ g, .doc g ∈ ws → g.tree.wellBound = true) :
    Bound s t := by
  induction h with
  | ident | literal | dots | period | noDoc | none | empty =>
    exact .of_tree nofun fun _ => ⟨rfl, Phrase.tightness_le _⟩
  | doc g => exact .of_tree nofun fun _ => ⟨hws g List.mem_cons_self, Nat.zero_le _⟩
  | cover hc _ ih =>
    refine .of_tree (by rintro ps rfl; cases hc) fun hs => ?_
    obtain ⟨ht, htight⟩ := (ih hws).1 (hc.isProper hs)
    exact ⟨ht, Nat.le_trans hc.tightness_le htight⟩
  | node hrow _ ih =>
    refine .of_tree (by rintro ps rfl; cases hrow) fun hs => ?_
    obtain ⟨hfields, hbind⟩ := (ih hws).2 rfl rfl (hrow.isPlain hs)
    obtain ⟨htight, hbinds⟩ := hrow.binds hbind
    exact ⟨Tree.wellBound_node.mpr ⟨hbinds, hfields⟩, htight⟩
  | behind _ _ ih =>
    have ih := ih fun g hg => hws g (List.mem_cons_of_mem _ hg)
    exact .of_tree nofun fun hs => ⟨(ih.1 hs).1, Nat.zero_le _⟩
  | spread _ _ ih | endedComma _ _ ih | linesSemicolon _ _ ih =>
    have ih := ih fun g hg => hws g (List.mem_append_left _ hg)
    exact .of_tree nofun fun hs => ⟨(ih.1 hs).1, Nat.zero_le _⟩
  | one _ _ ih =>
    exact .of_list nofun fun hs => List.forall_mem_singleton.mpr ((ih hws).1 hs).1
  | endedNil | linesNil => exact .of_list nofun nofun
  | more _ _ _ ih₁ ih₂ | linesItem _ _ _ ih₁ ih₂ =>
    have ih₁ := ih₁ fun g hg => hws g (List.mem_append_left _ hg)
    have ih₂ := ih₂ fun g hg => hws g (List.mem_append_right _ hg)
    exact ih₁.snoc ih₂ nofun fun hs => ⟨hs, hs⟩
  | firstName _ ih => exact .of_list nofun fun _ => List.forall_mem_singleton.mpr ((ih hws).1 rfl).1
  | nextName _ _ _ ih₁ ih₂ =>
    have ih₁ := ih₁ fun g hg => hws g (List.mem_append_left _ hg)
    have ih₂ := ih₂ fun g hg => hws g (List.mem_append_right _ (List.mem_cons_of_mem _ hg))
    exact ih₁.snoc ih₂ nofun fun hs => ⟨hs, rfl⟩
  | partsNil =>
    refine ⟨nofun, ?_⟩
    rintro _ _ ⟨⟩ ⟨⟩ -
    exact ⟨nofun, rfl⟩
  | word _ _ ih | lineEnd _ _ ih =>
    have ih := ih fun g hg => hws g (List.mem_cons_of_mem _ hg)
    exact ih.cons (u := []) fun _ => ⟨nofun, id⟩
  | noLineEnd _ ih => exact (ih hws).cons (u := []) fun _ => ⟨nofun, id⟩
  | mark _ _ ih =>
    have ih := ih fun g hg => hws g (List.mem_cons_of_mem _ hg)
    exact ih.cons (u := [_]) fun _ => ⟨by simp [Tree.wellBound], id⟩
  | markIn htok _ ih =>
    have ih := ih fun g hg => hws g (List.mem_cons_of_mem _ hg)
    exact ih.cons (u := [_, _]) fun _ => ⟨by simp [Tree.wellBound],
      fun hts => ⟨⟨_, htok, rfl⟩, hts⟩⟩
  | unmarked _ ih => exact (ih hws).cons (u := [_, _]) fun _ => ⟨by simp [Tree.wellBound], id⟩
  | sub _ _ ih₁ ih₂ =>
    have ih₁ := ih₁ fun g hg => hws g (List.mem_append_left _ hg)
    have ih₂ := ih₂ fun g hg => hws g (List.mem_append_right _ hg)
    refine ih₂.cons (u := [_]) fun hs => ?_
    obtain ⟨ht, htight⟩ := ih₁.1 hs
    exact ⟨List.forall_mem_singleton.mpr ht, fun hts => ⟨htight, hts⟩⟩
  | const _ ih =>
    exact (ih hws).cons (u := [_]) fun ht => ⟨List.forall_mem_singleton.mpr ht,
      fun hts => ⟨rfl, hts⟩⟩
  | args _ _ _ ih₁ ih₂ =>
    have ih₁ := ih₁ fun g hg => hws g (List.mem_append_left _ hg)
    have ih₂ := ih₂ fun g hg => hws g (List.mem_append_right _ hg)
    refine ih₂.cons (u := [_, _]) fun _ => ⟨List.forall_mem_cons.mpr ⟨(ih₁.1 rfl).1, ?_⟩, id⟩
    exact List.forall_mem_singleton.mpr rfl
  | @targets ps ws ws' xs ts _ _ ih₁ ih₂ =>
    have ih₁ := ih₁ fun g hg => hws g (List.mem_append_left _ hg)
    have ih₂ := ih₂ fun g hg => hws g (List.mem_append_right _ hg)
    have htarget (i : Nat) : (xs[i]?.getD .nil).wellBound = true := by
      cases hx : xs[i]? with
      | none => rfl
      | some x => exact ih₁.items rfl x (List.mem_of_getElem? hx)
    exact ih₂.cons (u := [_, _]) fun _ => ⟨by simp [htarget], id⟩
  | params _ hfields _ ih₁ ih₂ =>
    have ih₁ := ih₁ fun g hg => hws g (List.mem_append_left _ hg)
    have ih₂ := ih₂ fun g hg => hws g (List.mem_append_right _ hg)
    have hfs := Rules.forall_fieldsOfEntries (fun t ht _ => ht) hfields fun e he =>
      Tree.wellBound_field.mp (ih₁.items rfl _ (List.mem_map_of_mem he))
    refine ih₂.cons (u := [_]) fun _ => ⟨List.forall_mem_singleton.mpr ?_, id⟩
    rw [Tree.wellBound_list]
    intro t ht
    obtain ⟨names, type, rfl, hnames, htype⟩ := hfs t ht
    exact Tree.wellBound_field.mpr ⟨hnames, htype⟩

/-- **What is read is well bound**, if the comments above it are. -/
theorem wellBound (h : Derives d s ws t) (hs : s.isProper = true)
    (hws : ∀ g, .doc g ∈ ws → g.tree.wellBound = true) : t.wellBound = true :=
  ((h.bound hws).1 hs).1

end Derives

end Graft
