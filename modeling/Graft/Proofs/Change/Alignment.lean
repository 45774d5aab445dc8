import Graft.Change.Baseline
import Graft.Proofs.Change.Cheapest
import Graft.Proofs.Tree.SameCode

/-! # Edit scripts

A script between two lists names every element of both, in order, and pairs as equal only elements
that are (`EditStep.Turns`).  The scripts of the aligner do, since they obey its rules
(`Alignment.Priced.turns`), and trimming equal items at the ends keeps that
(`Baseline.listScript_turns`).
-/

namespace Graft

/-- Whether steps turn one list into another. -/
inductive EditStep.Turns {α : Type} : List α → List α → List EditStep → Prop where
  | nil : Turns [] [] []
  | same {x : α} {xs ys : List α} {steps : List EditStep} (h : Turns xs ys steps) :
    Turns (x :: xs) (x :: ys) (.same :: steps)
  | modified {x y : α} {xs ys : List α} {steps : List EditStep} (h : Turns xs ys steps) :
    Turns (x :: xs) (y :: ys) (.modified :: steps)
  | deleted {x : α} {xs ys : List α} {steps : List EditStep} (h : Turns xs ys steps) :
    Turns (x :: xs) ys (.deleted :: steps)
  | inserted {y : α} {xs ys : List α} {steps : List EditStep} (h : Turns xs ys steps) :
    Turns xs (y :: ys) (.inserted :: steps)

namespace EditStep.Turns

variable {α : Type} {x : α} {xs ys xs' ys' : List α} {steps steps' : List EditStep}

theorem append (h : Turns xs ys steps) (h' : Turns xs' ys' steps') :
    Turns (xs ++ xs') (ys ++ ys') (steps ++ steps') := by
  induction h with
  | nil => exact h'
  | same _ ih => exact ih.same
  | modified _ ih => exact ih.modified
  | deleted _ ih => exact ih.deleted
  | inserted _ ih => exact ih.inserted

theorem refl (xs : List α) : Turns xs xs (List.replicate xs.length .same) := by
  induction xs with
  | nil => exact .nil
  | cons x xs ih => exact ih.same

/-- What becomes of the first element of the old list, behind the insertions before it. -/
theorem cons_cases (h : Turns (x :: xs) ys steps) :
    let count := (steps.takeWhile (· == .inserted)).length
    (∃ ys' steps', ys.drop count = x :: ys' ∧ steps.drop count = .same :: steps' ∧
      Turns xs ys' steps') ∨
    (∃ y ys' steps', ys.drop count = y :: ys' ∧ steps.drop count = .modified :: steps' ∧
      Turns xs ys' steps') ∨
    ∃ steps', steps.drop count = .deleted :: steps' ∧ Turns xs (ys.drop count) steps' := by
  generalize heq : x :: xs = zs at h
  induction h with
  | nil => cases heq
  | same h =>
    cases heq
    exact .inl ⟨_, _, rfl, rfl, h⟩
  | modified h =>
    cases heq
    exact .inr (.inl ⟨_, _, _, rfl, rfl, h⟩)
  | deleted h =>
    cases heq
    exact .inr (.inr ⟨_, rfl, h⟩)
  | inserted _ ih => exact ih heq

end EditStep.Turns

/-- A script that obeys the rules of the aligner turns one beginning into the other. -/
theorem Alignment.Priced.turns {α : Type} {cost : Similarity → Nat} {limit i j total : Nat}
    {similarity : Nat → Nat → Similarity} {xs ys : List α} {steps : List EditStep}
    (h : Priced cost limit similarity i j steps total)
    (hi : i ≤ xs.length) (hj : j ≤ ys.length)
    (hsame : ∀ i j x y, xs[i]? = some x → ys[j]? = some y → (similarity i j).isIdentical =
      true → x = y) :
    EditStep.Turns (xs.take i) (ys.take j) steps := by
  have htake {zs : List α} {k : Nat} (hk : k + 1 ≤ zs.length) :
      ∃ z, zs[k]? = some z ∧ zs.take (k + 1) = zs.take k ++ [z] :=
    ⟨zs[k], List.getElem?_eq_getElem hk, (List.take_append_getElem hk).symm⟩
  have hnil (zs : List α) : zs = zs ++ [] := (List.append_nil zs).symm
  induction h with
  | nil => exact .nil
  | same _ hequal ih =>
    obtain ⟨x, hx, hxs⟩ := htake hi
    obtain ⟨y, hy, hys⟩ := htake hj
    obtain rfl := hsame _ _ x y hx hy (beq_iff_eq.mpr hequal)
    rw [hxs, hys]
    exact (ih (Nat.le_of_succ_le hi) (Nat.le_of_succ_le hj)).append (.same .nil)
  | modified _ _ _ ih =>
    obtain ⟨x, -, hxs⟩ := htake hi
    obtain ⟨y, -, hys⟩ := htake hj
    rw [hxs, hys]
    exact (ih (Nat.le_of_succ_le hi) (Nat.le_of_succ_le hj)).append (.modified .nil)
  | deleted _ ih =>
    obtain ⟨x, -, hxs⟩ := htake hi
    rw [hxs, hnil (ys.take _)]
    exact (ih (Nat.le_of_succ_le hi) hj).append (.deleted .nil)
  | inserted _ ih =>
    obtain ⟨y, -, hys⟩ := htake hj
    rw [hys, hnil (xs.take _)]
    exact (ih hi (Nat.le_of_succ_le hj)).append (.inserted .nil)

/-! ### Lists of trees -/

/-- Only equal trees are identical. -/
theorem Tree.eq_of_similarity {t u : Tree} (h : (t.similarity u).isIdentical = true) : t = u := by
  unfold Tree.similarity at h
  dsimp only at h
  split at h
  · cases h
  · rename_i hdifferent
    rw [h, Bool.true_and, Bool.not_eq_true, Bool.not_eq_false'] at hdifferent
    exact eq_of_beq hdifferent

namespace Baseline

theorem take_commonCount (xs ys : List Tree) :
    xs.take (commonCount xs ys) = ys.take (commonCount xs ys) ∧ commonCount xs ys ≤ xs.length ∧
      commonCount xs ys ≤ ys.length := by
  fun_induction commonCount xs ys with
  | case1 x xs y ys heq ih =>
    obtain ⟨htake, hxs, hys⟩ := ih
    rw [List.take_succ_cons, List.take_succ_cons, htake, eq_of_beq heq]
    exact ⟨rfl, Nat.succ_le_succ hxs, Nat.succ_le_succ hys⟩
  | case2 => exact ⟨rfl, Nat.zero_le _, Nat.zero_le _⟩
  | case3 => exact ⟨rfl, Nat.zero_le _, Nat.zero_le _⟩

/-- The middle and the end of a list behind its first `f` items. -/
theorem take_append_middle (xs : List Tree) (f b : Nat) :
    xs = xs.take f ++ (xs.take (xs.length - b)).drop f ++ (xs.drop f).drop
      ((xs.drop f).length - b) := by
  have hdrop : (xs.take (xs.length - b)).drop f = (xs.drop f).take ((xs.drop f).length - b) := by
    rw [List.drop_take, List.length_drop]
    congr 1
    omega
  rw [hdrop, List.append_assoc, List.take_append_drop, List.take_append_drop]

/-- Two lists with the items they share at both ends apart from what stands between. -/
theorem exists_common (xs ys : List Tree) :
    ∃ front back xm ym, xs = front ++ xm ++ back ∧ ys = front ++ ym ++ back ∧
      listScript xs ys = List.replicate front.length .same ++
        Alignment.scriptBy Alignment.exactCost Alignment.defaultLimit xm.length ym.length
          (fun i j => (xm[i]?.getD .nil).similarity (ym[j]?.getD .nil)) ++
        List.replicate back.length .same := by
  obtain ⟨hfront, hxs, -⟩ := take_commonCount xs ys
  generalize hf : commonCount xs ys = f at hfront hxs
  obtain ⟨hback, hxb, -⟩ := take_commonCount (xs.drop f).reverse (ys.drop f).reverse
  generalize hb : commonCount (xs.drop f).reverse (ys.drop f).reverse = b at hback hxb
  rw [List.length_reverse] at hxb
  rw [List.take_reverse, List.take_reverse, List.reverse_inj] at hback
  refine ⟨xs.take f, (xs.drop f).drop ((xs.drop f).length - b), (xs.take (xs.length - b)).drop f,
    (ys.take (ys.length - b)).drop f, take_append_middle xs f b, ?_, ?_⟩
  · rw [hfront, hback]
    exact take_append_middle ys f b
  · have hlength : ((xs.drop f).drop ((xs.drop f).length - b)).length = b := by
      rw [List.length_drop]
      omega
    rw [List.length_take, Nat.min_eq_left hxs, hlength]
    simp only [listScript, hf, hb]

/-- **The script between two lists turns one into the other.** -/
theorem listScript_turns (xs ys : List Tree) : EditStep.Turns xs ys (listScript xs ys) := by
  obtain ⟨front, back, xm, ym, hxs, hys, hscript⟩ := exists_common xs ys
  have hmiddle :=
    (Alignment.scriptBy_priced Alignment.exactCost Alignment.defaultLimit xm.length ym.length
    fun i j => (xm[i]?.getD .nil).similarity (ym[j]?.getD .nil)).turns (Nat.le_refl _)
      (Nat.le_refl _)
    fun i j x y hx hy hsame => by
      rw [hx, hy] at hsame
      exact Tree.eq_of_similarity hsame
  rw [List.take_length, List.take_length] at hmiddle
  rw [hscript, hxs, hys]
  exact ((EditStep.Turns.refl front).append hmiddle).append (.refl back)

end Baseline

end Graft
