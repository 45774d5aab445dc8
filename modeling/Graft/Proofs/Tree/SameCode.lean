import Graft.Tree.Basic
import Mathlib.Data.List.Forall2

/-! # Trees that agree

`Tree.agreeBy` compares trees up to positions.  With positions included only equal trees agree
(`Tree.eq_of_agreeBy`).

Trees that spell the same code (`Tree.SameCode`) are built alike, and what can be asked of them
without reading a position has the same answer: their kinds, the slots they fit, and whether they
stand anywhere at all (`SameCode.isValid_start`, `SameCode.isValid_stop`).
-/

namespace Graft

namespace Tree

/-! ### Values that compare equal -/

mutual

theorem eq_of_agreeBy (t u : Tree) (h : agreeBy (· == ·) t u = true) : t = u := by
  match t, u with
  | nil, nil => rfl
  | pos p, pos q =>
    simp only [agreeBy, beq_iff_eq] at h
    rw [h]
  | str s, str s' =>
    simp only [agreeBy, beq_iff_eq] at h
    rw [h]
  | tok s, tok s' =>
    simp only [agreeBy, beq_iff_eq] at h
    rw [h]
  | list ts, list us =>
    rw [agreeBy] at h
    rw [eq_of_agreeAllBy ts us h]
  | node k ts, node l us =>
    rw [agreeBy, Bool.and_eq_true, beq_iff_eq] at h
    rw [h.1, eq_of_agreeAllBy ts us h.2]

theorem eq_of_agreeAllBy (ts us : List Tree) (h : agreeAllBy (· == ·) ts us = true) : ts = us := by
  match ts, us with
  | [], [] => rfl
  | t :: ts, u :: us =>
    rw [agreeAllBy, Bool.and_eq_true] at h
    rw [eq_of_agreeBy t u h.1, eq_of_agreeAllBy ts us h.2]

end

mutual

/-- Every value agrees with itself. -/
theorem agreeBy_refl {samePos : Pos → Pos → Bool} (hrefl : ∀ p, samePos p p = true) (t : Tree) :
    agreeBy samePos t t = true := by
  match t with
  | nil => rfl
  | pos p => exact hrefl p
  | str s | tok s => exact beq_self_eq_true s
  | list ts => exact agreeAllBy_refl hrefl ts
  | node k fs =>
    rw [agreeBy, Bool.and_eq_true]
    exact ⟨beq_self_eq_true k, agreeAllBy_refl hrefl fs⟩

theorem agreeAllBy_refl {samePos : Pos → Pos → Bool} (hrefl : ∀ p, samePos p p = true)
    (ts : List Tree) :
    agreeAllBy samePos ts ts = true := by
  match ts with
  | [] => rfl
  | t :: ts =>
    rw [agreeAllBy, Bool.and_eq_true]
    exact ⟨agreeBy_refl hrefl t, agreeAllBy_refl hrefl ts⟩

end

instance : LawfulBEq Tree where
  eq_of_beq {t u} h := eq_of_agreeBy t u h
  rfl {t} := agreeBy_refl (fun p => beq_self_eq_true p) t

/-! ### Values that spell the same code -/

theorem agreeAllBy_iff {samePos : Pos → Pos → Bool} {ts us : List Tree} :
    agreeAllBy samePos ts us = true ↔
      List.Forall₂ (fun t u => agreeBy samePos t u = true) ts us := by
  induction ts generalizing us with
  | nil => cases us <;> simp [agreeAllBy]
  | cons t ts ih => cases us <;> simp [agreeAllBy, ih]

/-- Whether two values spell the same code, wherever they stand. -/
def SameCode (t u : Tree) : Prop := t.sameCode u = true

/-- Whether the values of two lists spell the same code one by one. -/
abbrev SameCodeAll (ts us : List Tree) : Prop := List.Forall₂ SameCode ts us

theorem SameCode.refl (t : Tree) : t.SameCode t :=
  agreeBy_refl (fun p => beq_self_eq_true p.isValid) t

/-- How two values that spell the same code are built. -/
inductive BuiltAlike : Tree → Tree → Prop where
  | nil : BuiltAlike nil nil
  | pos {p q : Pos} (h : p.isValid = q.isValid) : BuiltAlike (pos p) (pos q)
  | str (s : String) : BuiltAlike (str s) (str s)
  | tok (t : Token) : BuiltAlike (tok t) (tok t)
  | list {ts us : List Tree} (h : SameCodeAll ts us) : BuiltAlike (list ts) (list us)
  | node (k : Kind) {ts us : List Tree} (h : SameCodeAll ts us) : BuiltAlike (node k ts) (node k us)

theorem sameCode_iff_builtAlike {t u : Tree} : SameCode t u ↔ BuiltAlike t u := by
  constructor
  · intro h
    unfold SameCode sameCode at h
    match t, u with
    | nil, nil => exact .nil
    | pos p, pos q => exact .pos (eq_of_beq h)
    | str s, str s' =>
      cases eq_of_beq (α := String) h
      exact .str s
    | tok s, tok s' =>
      cases eq_of_beq (α := Token) h
      exact .tok s
    | list ts, list us => exact .list (agreeAllBy_iff.mp h)
    | node k ts, node l us =>
      rw [agreeBy, Bool.and_eq_true, beq_iff_eq] at h
      cases h.1
      exact .node k (agreeAllBy_iff.mp h.2)
  · intro h
    unfold SameCode sameCode
    cases h with
    | nil => rfl
    | pos h => exact beq_iff_eq.mpr h
    | str s | tok s => exact beq_self_eq_true s
    | list h => exact agreeAllBy_iff.mpr h
    | node k h =>
      rw [agreeBy, Bool.and_eq_true]
      exact ⟨beq_self_eq_true k, agreeAllBy_iff.mpr h⟩

alias ⟨SameCode.builtAlike, BuiltAlike.sameCode⟩ := sameCode_iff_builtAlike

theorem SameCode.kind? {t u : Tree} (h : SameCode t u) : t.kind? = u.kind? := by
  cases h.builtAlike <;> rfl

theorem SameCode.isNil {t u : Tree} (h : SameCode t u) : t.isNil = u.isNil := by
  cases h.builtAlike <;> rfl

theorem SameCode.items {t u : Tree} (h : SameCode t u) : SameCodeAll t.items u.items := by
  cases h.builtAlike with
  | list hts => exact hts
  | _ => exact .nil

end Tree

section Lists

variable {α β : Type} {R : α → β → Prop} {as : List α} {bs : List β}

theorem rel_getElem? (h : List.Forall₂ R as bs) (i : Nat) : Option.Rel R as[i]? bs[i]? := by
  induction h generalizing i with
  | nil => exact .none
  | cons hhead _ ih =>
    cases i with
    | zero => exact .some hhead
    | succ i => exact ih i

theorem rel_head? (h : List.Forall₂ R as bs) : Option.Rel R as.head? bs.head? := by
  rw [List.head?_eq_getElem?, List.head?_eq_getElem?]
  exact rel_getElem? h 0

theorem rel_getLast? (h : List.Forall₂ R as bs) : Option.Rel R as.getLast? bs.getLast? := by
  rw [List.getLast?_eq_getElem?, List.getLast?_eq_getElem?, h.length_eq]
  exact rel_getElem? h _

end Lists

/-! ### Standing somewhere -/

namespace Tree

theorem isValid_startAll_cons (t : Tree) (ts : List Tree) :
    (startAll (t :: ts)).isValid = (t.start.isValid || (startAll ts).isValid) := by
  rw [startAll]
  split
  · rename_i h
    simp [h]
  · rename_i h
    simp [h]

mutual

theorem SameCode.isValid_start {t u : Tree} (h : SameCode t u) :
    t.start.isValid = u.start.isValid := by
  match t, u, h.builtAlike with
  | _, _, .nil | _, _, .str _ | _, _, .tok _ => rfl
  | _, _, .pos h => exact h
  | _, _, .list hts | _, _, .node _ hts => exact isValid_startAll hts

theorem isValid_startAll {ts us : List Tree} (h : SameCodeAll ts us) :
    (startAll ts).isValid = (startAll us).isValid := by
  match ts, us, h with
  | [], [], _ => rfl
  | t :: ts, u :: us, .cons hhead htail =>
    rw [isValid_startAll_cons, isValid_startAll_cons, hhead.isValid_start, isValid_startAll htail]

end

mutual

theorem SameCode.isValid_stop {t u : Tree} (h : SameCode t u) :
    t.stop.isValid = u.stop.isValid := by
  match t, u, h.builtAlike with
  | _, _, .nil | _, _, .pos _ | _, _, .str _ | _, _, .tok _ => rfl
  | _, _, .list hts => exact isValid_stopAll hts
  | _, _, .node k hts => exact isValid_stopFields _ _ k.fields hts

theorem isValid_stopAll {ts us : List Tree} (h : SameCodeAll ts us) :
    (stopAll ts).isValid = (stopAll us).isValid := by
  match ts, us, h with
  | [], [], _ => rfl
  | t :: ts, u :: us, .cons hhead htail =>
    rw [stopAll, stopAll, Pos.isValid_max, Pos.isValid_max, hhead.isValid_stop,
      isValid_stopAll htail]

/-- How wide a token is does not decide whether it is there. -/
theorem isValid_stopFields (all all' : List Tree) (fs : List Field) {ts us : List Tree}
    (h : SameCodeAll ts us) : (stopFields all fs ts).isValid = (stopFields all' fs us).isValid := by
  match fs, ts, us, h with
  | [], _, _, _ => simp [stopFields]
  | _ :: _, [], [], _ => rfl
  | f :: fs, t :: ts, u :: us, .cons hhead htail =>
    have hstop := hhead.isValid_stop
    have htail := isValid_stopFields all all' fs htail
    unfold stopFields
    dsimp only
    rw [Pos.isValid_max, Pos.isValid_max, htail]
    congr 1
    cases hhead.builtAlike with
    | pos hp =>
      cases f.slot with
      | pos w => rw [Pos.isValid_advance, Pos.isValid_advance, hp]
      | _ => rfl
    | _ => cases f.slot <;> exact hstop

end

end Tree

/-! ### Slots and fields -/

theorem Slot.accepts_sameCode {t u : Tree} (h : t.SameCode u) (s : Slot) :
    s.accepts t = s.accepts u := by
  cases h.builtAlike with
  | nil | str | tok => rfl
  | pos | node => cases s <;> rfl
  | list hts =>
    cases s with
    | list c =>
      induction hts with
      | nil => rfl
      | cons hhead htail ih =>
        rw [accepts, accepts] at ih ⊢
        rw [List.all_cons, List.all_cons, hhead.kind?, ih (Tree.BuiltAlike.list htail).sameCode]
    | _ => rfl

namespace Node

/-- Whether two nodes spell the same code. -/
def SameCode (m n : Node) : Prop := m.tree.SameCode n.tree

variable {m n : Node}

theorem sameCode_iff : m.SameCode n ↔ m.kind = n.kind ∧ Tree.SameCodeAll m.fields n.fields := by
  obtain ⟨k, fs⟩ := m
  obtain ⟨l, gs⟩ := n
  constructor
  · intro h
    cases h.builtAlike with
    | node k h => exact ⟨rfl, h⟩
  · rintro ⟨rfl, h⟩
    exact (Tree.BuiltAlike.node k h).sameCode

theorem SameCode.get (h : m.SameCode n) (l : Label) : (m.get l).SameCode (n.get l) := by
  obtain ⟨hkind, hfields⟩ := sameCode_iff.mp h
  unfold Node.get
  rw [hkind]
  split
  · rename_i i _
    generalize m.fields[i]? = x, n.fields[i]? = y, rel_getElem? hfields i = hxy
    cases hxy with
    | some hvalue => exact hvalue
    | none => exact .refl _
  · exact .refl _

theorem SameCode.set (h : m.SameCode n) (l : Label) {t u : Tree} (htu : t.SameCode u) :
    (m.set l t).SameCode (n.set l u) := by
  obtain ⟨hkind, hfields⟩ := sameCode_iff.mp h
  unfold Node.set
  rw [hkind]
  split
  · rename_i i _
    refine sameCode_iff.mpr ⟨rfl, ?_⟩
    rw [List.set_eq_take_append_cons_drop, List.set_eq_take_append_cons_drop, hfields.length_eq]
    split
    · exact List.rel_append (List.forall₂_take i hfields) (.cons htu (List.forall₂_drop _ hfields))
    · exact hfields
  · exact h

end Node

theorem Tree.SameCode.node? {t u : Tree} (h : t.SameCode u) :
    Option.Rel Node.SameCode t.node? u.node? := by
  cases h.builtAlike with
  | node k hts => exact .some h
  | _ => exact .none

instance : LawfulBEq Node where
  eq_of_beq {m n} h := by
    have heq : m.tree = n.tree := eq_of_beq h
    rwa [Node.tree, Node.tree, Tree.node.injEq, ← Node.mk.injEq] at heq
  rfl {n} := beq_self_eq_true n.tree

end Graft
