import Graft.Proofs.Change.Alignment
import Graft.Tree.Path

/-! # Comparing trees that differ in one place

Where two trees are equal but for one place (`Tree.Swap`), a comparison marks nothing on the way
down to it.  An item of a list that became another one is alone between the items that both lists
share at their ends, so the script of the lists says of it only (`Baseline.listScript_swap`): it was
modified if its kind is the same, and otherwise it was deleted and the new one inserted behind it.

What is marked is then what a comparison of the two values marks, or, if an item became one of
another kind, its range with the comments that belong to it and the gap behind it.
-/

namespace Graft

/-- Whether one tree becomes another when a value takes the place of another one in it. -/
inductive Tree.Swap (x y : Tree) : Tree → Tree → Prop where
  | here : Swap x y x y
  | field {t u : Tree} (k : Kind) (fs gs : List Tree) (h : Swap x y t u) :
    Swap x y (.node k (fs ++ t :: gs)) (.node k (fs ++ u :: gs))
  | item {t u : Tree} (ts us : List Tree) (h : Swap x y t u) :
    Swap x y (.list (ts ++ t :: us)) (.list (ts ++ u :: us))

theorem Tree.Swap.ne {x y t u : Tree} (h : Swap x y t u) (hne : x ≠ y) : t ≠ u := by
  induction h with
  | here => exact hne
  | field k fs gs _ ih =>
    intro heq
    cases List.append_cancel_left (Tree.node.inj heq).2
    exact ih rfl
  | item ts us _ ih =>
    intro heq
    cases List.append_cancel_left (Tree.list.inj heq)
    exact ih rfl

theorem Tree.Swap.eq {x t u : Tree} (h : Swap x x t u) : t = u := by
  induction h with
  | here => rfl
  | field k fs gs _ ih => rw [ih]
  | item ts us _ ih => rw [ih]

theorem Tree.Swap.isNil_eq {x y t u : Tree} (h : Swap x y t u) (hnil : x.isNil = y.isNil) :
    t.isNil = u.isNil := by
  cases h with
  | here => exact hnil
  | field | item => rfl

theorem Tree.Swap.modifyStep {x y t u : Tree} {f : Tree → Tree} {step : PathStep}
    (hu : t.step? step = some u) (h : Swap x y u (f u)) : Swap x y t (t.modifyStep f step) := by
  have hmodify {ts : List Tree} {i : Nat} (hi : ts[i]? = some u) :
      ∃ vs ws, ts = vs ++ u :: ws ∧ ts.modify i f = vs ++ f u :: ws := by
    obtain ⟨hlt, rfl⟩ := List.getElem?_eq_some_iff.mp hi
    exact ⟨_, _, by rw [← List.drop_eq_getElem_cons hlt, List.take_append_drop],
      List.modify_eq_take_cons_drop hlt⟩
  match t, step with
  | .node k fs, .field name =>
    obtain ⟨i, hindex, hi⟩ := Option.bind_eq_some_iff.mp hu
    obtain ⟨vs, ws, rfl, heq⟩ := hmodify hi
    simp only [Tree.modifyStep, hindex, heq]
    exact .field k vs ws h
  | .list ts, .item i =>
    obtain ⟨vs, ws, rfl, heq⟩ := hmodify hu
    rw [Tree.modifyStep, heq]
    exact .item vs ws h

/-- Setting the value at the end of a path changes a tree in one place. -/
theorem Tree.swap_editAt {x t : Tree} {path : List PathStep} (y : Tree) (hpath : path ≠ [])
    (h : t.at? path = some x) : Swap x y t (t.editAt (.set y) path) := by
  induction path generalizing t with
  | nil => exact absurd rfl hpath
  | cons step path ih =>
    obtain ⟨u, hu, hrest⟩ := Option.bind_eq_some_iff.mp h
    cases path with
    | nil =>
      obtain rfl : u = x := Option.some.inj hrest
      exact .modifyStep hu .here
    | cons next path => exact .modifyStep hu (ih (List.cons_ne_nil _ _) hrest)

/-! ### Scripts -/

/-- The script between two elements: the pairing of both, or the new one behind the old one. -/
theorem Alignment.script_one_one (similarity : Nat → Nat → Similarity) :
    scriptBy exactCost defaultLimit 1 1 similarity =
      match pairing? exactCost defaultLimit (similarity 0 0) with
      | some (step, _) => [step]
      | none => [.deleted, .inserted] := by
  cases hpair : pairing? exactCost defaultLimit (similarity 0 0) with
  | none =>
    simp [scriptBy, row, firstRow, nextRow, rowFrom, choose, hpair, Cell.extend]
  | some pair =>
    obtain ⟨step, cost⟩ := pair
    have hcost : cost ≤ 200 := by
      obtain ⟨-, -, rfl⟩ | ⟨-, -, -, hlt⟩ := pairing?_eq_some_iff.mp hpair
      · exact Nat.zero_le _
      · exact Nat.le_of_lt hlt
    simp [scriptBy, row, firstRow, nextRow, rowFrom, choose, hpair, Cell.extend, uniqueCost, hcost]

/-- Nodes of one kind are always paired. -/
theorem Tree.pairing?_of_kind {x y : Tree} (hx : x.kind?.isSome = true) (hkind : x.kind? = y.kind?)
    (hne : x ≠ y) :
    ∃ cost, Alignment.pairing? Alignment.exactCost Alignment.defaultLimit (x.similarity y) = some
      (.modified, cost) := by
  have hsame : 1 ≤ (x.similarity y).same := by
    have hle : 1 ≤ (x.likeness y).same := by
      cases x with
      | node k fs =>
        cases y with
        | node l gs =>
          obtain rfl := Option.some.inj hkind
          rw [likeness, if_pos (beq_self_eq_true k)]
          exact Nat.le_add_right _ _
        | _ => cases hkind
      | _ => cases hx
    rw [similarity]
    split <;> exact hle
  have hdifferent : 0 < (x.similarity y).different := by
    refine Nat.pos_of_ne_zero fun h => hne (eq_of_similarity ?_)
    rw [Similarity.isIdentical, h]
    rfl
  refine ⟨_, Alignment.pairing?_eq_some_iff.mpr (.inr ⟨rfl, hdifferent, rfl, ?_⟩)⟩
  rw [Alignment.exactCost, Nat.div_lt_iff_lt_mul (Nat.add_pos_right _ hdifferent)]
  change _ < 200 * _
  exact Nat.mul_lt_mul_of_pos_left (Nat.lt_add_of_pos_left hsame) (by decide)

/-- Nodes of two kinds are never paired. -/
theorem Tree.pairing?_of_kind_ne {k l : Kind} {fs gs : List Tree} (hne : k ≠ l) :
    Alignment.pairing? Alignment.exactCost Alignment.defaultLimit
      ((node k fs).similarity (node l gs)) = none := by
  obtain ⟨different, hpos, hlikeness⟩ : ∃ different, 0 < different ∧
      (node k fs).likeness (node l gs) = ⟨0, different⟩ := by
    refine ⟨max (max (1 + Tree.weightAll fs) (1 + Tree.weightAll gs)) 1, Nat.le_max_right _ _, ?_⟩
    rw [likeness, if_neg fun h => hne (beq_iff_eq.mp h)]
  have hidentical : (Similarity.mk 0 different).isIdentical = false :=
    beq_false_of_ne (Nat.ne_of_gt hpos)
  have heq : (node k fs).similarity (node l gs) = ⟨0, different⟩ := by
    rw [similarity, hlikeness]
    exact if_neg (by rw [hidentical]; exact Bool.false_ne_true)
  rw [heq]
  cases hpair : Alignment.pairing? Alignment.exactCost Alignment.defaultLimit ⟨0, different⟩ with
  | none => rfl
  | some pair =>
    obtain ⟨step, cost⟩ := pair
    obtain ⟨-, hzero, -⟩ | ⟨-, -, hcost, hlt⟩ := Alignment.pairing?_eq_some_iff.mp hpair
    · exact absurd hzero (Nat.ne_of_gt hpos)
    · rw [hcost, Alignment.exactCost, Nat.zero_add, Nat.mul_div_cancel _ hpos] at hlt
      exact absurd hlt (Nat.lt_irrefl _)

namespace Baseline

/-! ### The script of two lists -/

theorem commonCount_append (ts us vs : List Tree) :
    commonCount (ts ++ us) (ts ++ vs) = ts.length + commonCount us vs := by
  induction ts with
  | nil => exact (Nat.zero_add _).symm
  | cons t ts ih =>
    rw [List.cons_append, List.cons_append, commonCount, if_pos (beq_self_eq_true t), ih,
      List.length_cons]
    omega

theorem commonCount_cons_of_ne {x y : Tree} (hne : x ≠ y) (us vs : List Tree) :
    commonCount (x :: us) (y :: vs) = 0 := by
  rw [commonCount, if_neg fun h => hne (eq_of_beq h)]

/-- The script between two lists that begin alike and go on with one of them only. -/
theorem listScript_append (ts us : List Tree) :
    listScript ts (ts ++ us) = List.replicate ts.length .same ++
      Alignment.scriptBy Alignment.exactCost Alignment.defaultLimit 0 us.length fun _ j =>
      Tree.nil.similarity (us[j]?.getD .nil) := by
  have hfront : commonCount ts (ts ++ us) = ts.length := by
    have h := commonCount_append ts [] us
    rwa [List.append_nil, show commonCount [] us = 0 from rfl] at h
  have hback : commonCount (ts.drop ts.length).reverse ((ts ++ us).drop ts.length).reverse = 0 := by
    rw [List.drop_length]
    rfl
  have hold : (ts.take (ts.length - 0)).drop ts.length = [] := by
    rw [Nat.sub_zero, List.take_length, List.drop_length]
  have hnew : ((ts ++ us).take ((ts ++ us).length - 0)).drop ts.length = us := by
    rw [Nat.sub_zero, List.take_length, List.drop_left]
  simp only [listScript, hfront, hback, hold, hnew]
  exact List.append_nil _

/-- **The script between two lists that differ in one item** says of all others that they are the
same. -/
theorem listScript_swap {x y : Tree} (hne : x ≠ y) (ts us : List Tree) :
    listScript (ts ++ x :: us) (ts ++ y :: us) =
      List.replicate ts.length .same ++
        (match Alignment.pairing? Alignment.exactCost Alignment.defaultLimit (x.similarity y) with
        | some (step, _) => [step]
        | none => [.deleted, .inserted]) ++
        List.replicate us.length .same := by
  have hfront : commonCount (ts ++ x :: us) (ts ++ y :: us) = ts.length := by
    rw [commonCount_append, commonCount_cons_of_ne hne]
    rfl
  have hback : commonCount (x :: us).reverse (y :: us).reverse = us.length := by
    rw [List.reverse_cons, List.reverse_cons, commonCount_append, commonCount_cons_of_ne hne,
      List.length_reverse]
    rfl
  have hmiddle (z : Tree) : ((ts ++ z :: us).take ((ts ++ z :: us).length - us.length)).drop
      ts.length = [z] := by
    have hlength : (ts ++ z :: us).length - us.length = (ts ++ [z]).length := by
      simp only [List.length_append, List.length_cons, List.length_nil]
      omega
    rw [hlength, List.append_cons ts z us, List.take_left, List.drop_left]
  have hscript := Alignment.script_one_one fun i j =>
    ([x][i]?.getD .nil).similarity ([y][j]?.getD .nil)
  simp only [listScript, hfront, List.drop_left, hback, hmiddle]
  rw [List.length_singleton, List.length_singleton, hscript]
  rfl

/-! ### What is marked -/

variable (b : Baseline)

/-- Where the last of some old items ends. -/
def prevEnd (ts : List Tree) : Option Pos := ts.getLast?.bind fun t => valid? (place t).stop

/-- Where the first of some old items begins. -/
def nextStart (ts : List Tree) : Option Pos := ts.head?.bind fun t => valid? (place t).start

theorem itemMarks_replicate_same (enclosing : Span) (prev : Option Pos) (ts us vs : List Tree)
    (steps : List EditStep) :
    b.itemMarks enclosing prev (ts ++ us) (ts ++ vs) (List.replicate ts.length .same ++ steps) =
      b.itemMarks enclosing (if ts.isEmpty then prev else prevEnd ts) us vs steps := by
  induction ts generalizing prev with
  | nil => rfl
  | cons t ts ih =>
    have hstep : b.itemMarks enclosing prev (t :: ts ++ us) (t :: ts ++ vs)
        (List.replicate (t :: ts).length .same ++ steps) =
          b.itemMarks enclosing (valid? (place t).stop) (ts ++ us) (ts ++ vs)
            (List.replicate ts.length .same ++ steps) := by
      simp only [List.cons_append, List.length_cons, List.replicate_succ, itemMarks]
      rfl
    rw [hstep, ih]
    cases ts with
    | nil => rfl
    | cons => rfl

theorem listScript_self (ts : List Tree) : listScript ts ts = List.replicate ts.length .same := by
  have h := listScript_append ts []
  rw [List.append_nil] at h
  rw [h]
  exact List.append_nil _

theorem itemMarks_same (enclosing : Span) (prev : Option Pos) (ts : List Tree) :
    b.itemMarks enclosing prev ts ts (List.replicate ts.length .same) = [] := by
  have h := b.itemMarks_replicate_same enclosing prev ts [] [] []
  rw [List.append_nil, List.append_nil] at h
  rw [h, itemMarks]
  rfl

mutual

/-- **What did not change is not marked.** -/
theorem marks_self (enclosing : Span) (t : Tree) : b.marks enclosing t t = [] := by
  match t with
  | .node k fs =>
    rw [marks, if_pos (beq_self_eq_true k)]
    exact fieldMarks_self _ fs
  | .list ts =>
    rw [marks, listScript_self]
    exact b.itemMarks_same _ _ ts
  | .nil | .pos _ | .str _ | .tok _ => simp [marks, Tree.isNil]

theorem fieldMarks_self (here : Span) (fs : List Tree) : b.fieldMarks here fs fs = [] := by
  match fs with
  | [] => rw [fieldMarks]; nofun
  | f :: fs =>
    rw [fieldMarks, fieldMarks_self here fs, marks_self here f]
    simp

end

theorem fieldMarks_append {fs gs : List Tree} (here : Span) (fs' gs' : List Tree)
    (h : fs.length = gs.length) :
    b.fieldMarks here (fs ++ fs') (gs ++ gs') = b.fieldMarks here fs gs ++
      b.fieldMarks here fs' gs' := by
  induction fs generalizing gs with
  | nil =>
    obtain rfl : gs = [] := List.length_eq_zero_iff.mp h.symm
    simp [fieldMarks]
  | cons f fs ih =>
    cases gs with
    | nil => cases h
    | cons g gs =>
      rw [List.cons_append, List.cons_append, fieldMarks, fieldMarks, ih (Nat.succ.inj h),
        List.append_assoc]

/-- In a node of which one field changed, the field is compared. -/
theorem marks_field {x y : Tree} (hnil : x.isNil = y.isNil) (enclosing : Span) (k : Kind)
    (fs gs : List Tree) :
    b.marks enclosing (.node k (fs ++ x :: gs)) (.node k (fs ++ y :: gs)) =
      b.marks (orEnclosing (Tree.node k (fs ++ x :: gs)).span enclosing) x y := by
  rw [marks, if_pos (beq_self_eq_true k), b.fieldMarks_append _ _ _ rfl, fieldMarks,
    b.fieldMarks_self, b.fieldMarks_self, if_neg (by simp [hnil]), List.nil_append, List.append_nil]

theorem marks_list (enclosing : Span) (xs ys : List Tree) :
    b.marks enclosing (.list xs) (.list ys) =
    b.itemMarks (orEnclosing (Tree.list xs).span enclosing) none xs ys (listScript xs ys) := by
  rw [marks]

/-- In a list of which one item changed and kept its kind, the item is compared. -/
theorem marks_item {x y : Tree} (hx : x.kind?.isSome = true)
    (hkind : x.kind? = y.kind?) (hne : x ≠ y) (enclosing : Span) (ts us : List Tree) :
    b.marks enclosing (.list (ts ++ x :: us)) (.list (ts ++ y :: us)) =
      b.marks (orEnclosing (Tree.list (ts ++ x :: us)).span enclosing) x y := by
  obtain ⟨cost, hpair⟩ := Tree.pairing?_of_kind hx hkind hne
  rw [marks_list, listScript_swap hne, hpair, List.append_assoc, itemMarks_replicate_same]
  have hstep (here : Span) (prev : Option Pos) :
      b.itemMarks here prev (x :: us) (y :: us) (.modified :: List.replicate us.length .same) =
        b.marks here x y ++ b.itemMarks here (valid? (place x).stop) us us
        (List.replicate us.length .same) := by
    rw [itemMarks]
    rfl
  rw [List.singleton_append, hstep, itemMarks_same, List.append_nil]

/-- In a list of which one item became one of another kind, the item and the gap behind it are
marked. -/
theorem marks_item_of_kind_ne {n m : Node} (hne : n.kind ≠ m.kind) (enclosing : Span)
    (ts us : List Tree) :
    b.marks enclosing (.list (ts ++ n.tree :: us)) (.list (ts ++ m.tree :: us)) =
      let here := orEnclosing (Tree.list (ts ++ n.tree :: us)).span enclosing
      orEnclosing (b.widen n.span (prevEnd ts) (nextStart us)) here ::
        gapMarks here (valid? n.stop) (nextStart us) := by
  have hpair : Alignment.pairing? Alignment.exactCost Alignment.defaultLimit
      (n.tree.similarity m.tree) = none :=
    Tree.pairing?_of_kind_ne hne
  have hne : n.tree ≠ m.tree := fun h => hne (Tree.node.inj h).1
  rw [marks_list, listScript_swap hne, hpair, List.append_assoc, itemMarks_replicate_same]
  have hprev : (if ts.isEmpty then none else prevEnd ts) = prevEnd ts := by
    cases ts <;> rfl
  have hstep (here : Span) (prev : Option Pos) :
      b.itemMarks here prev (n.tree :: us) (m.tree :: us)
          ([.deleted, .inserted] ++ List.replicate us.length .same) =
        orEnclosing (b.widen n.span prev (nextStart us)) here ::
          b.itemMarks here (valid? n.stop) us (m.tree :: us)
          (.inserted :: List.replicate us.length .same) := by
    rw [itemMarks]
    rfl
  have hgap (here : Span) (prev : Option Pos) (y : Tree) :
      b.itemMarks here prev us (y :: us) (.inserted :: List.replicate us.length .same) =
        gapMarks here prev (nextStart us) := by
    cases us with
    | nil =>
      rw [itemMarks]
      exact List.append_nil _
    | cons u us =>
      have hrest := b.itemMarks_same here (valid? (place u).stop) us
      rw [itemMarks]
      simp [List.replicate_succ, nextStart, hrest]
  rw [hprev, hstep, hgap]

end Baseline

end Graft
