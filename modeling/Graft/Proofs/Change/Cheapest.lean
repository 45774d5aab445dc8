import Graft.Change.Alignment
import Mathlib.Data.List.Chain

/-! # Cheapest edit scripts

The table of the aligner is filled row by row, but what a cell holds depends on its three neighbours
only: `Alignment.cell` says what, without the rows, and `Alignment.row_eq` and `Alignment.script_eq`
that the rows hold these cells.  Everything else is said about cells.

`Alignment.Priced` gives the rules for edit scripts and their cost.  A cell holds a script that
obeys them (`Alignment.cell_priced`), and none that does costs less
(`Alignment.Priced.cost_cell_le`): taking off its last step leaves a script between two shorter
beginnings, and a cell never costs more than a neighbour and the step from there.

This is so for any cost of pairings.  The aligner computes it in machine words, so its scripts are
cheapest where the similarities fit into these (`Alignment.script_cheapest`); where the cost
overflows it pairs elements that have nothing in common (`Alignment.script_overflows`).

The same inequality orders the steps.  If a cell prefers a deletion, leaving out the element of the
old list first would have been dearer; so the deletion does not come right behind an insertion,
which would have cost the same the other way round (`Alignment.isChain_cell`).
-/

namespace Graft

/-- Whether the cost of pairing two elements can be computed in machine words. -/
def Similarity.Fits (s : Similarity) : Prop :=
  s.same + s.different < UInt64.size ∧ 200 * s.different < UInt64.size

instance (s : Similarity) : Decidable s.Fits := inferInstanceAs (Decidable (_ ∧ _))

namespace Alignment

variable {cost cost' : Similarity → Nat} {limit i j : Nat} {similarity : Nat → Nat → Similarity}

/-! ### Cells -/

/-- What the table holds for the first `i` elements of the old list and the first `j` of the new
one. -/
def cell (cost : Similarity → Nat) (limit : Nat) (similarity : Nat → Nat → Similarity) :
    Nat → Nat → Cell
  | 0, 0 => ⟨0, []⟩
  | 0, j + 1 => (cell cost limit similarity 0 j).extend .inserted uniqueCost
  | i + 1, 0 => (cell cost limit similarity i 0).extend .deleted uniqueCost
  | i + 1, j + 1 =>
    choose cost limit (similarity i j) (cell cost limit similarity (i + 1) j)
      (cell cost limit similarity i j) (cell cost limit similarity i (j + 1))
termination_by i j => i + j

variable (cost limit similarity)

theorem firstRow_eq (j m : Nat) :
    firstRow (cell cost limit similarity 0 j) m =
      (List.range' j (m + 1)).map (cell cost limit similarity 0) := by
  induction m generalizing j with
  | zero => rfl
  | succ m ih => rw [firstRow, ← cell, ih, List.range'_succ (n := m + 1), List.map_cons]

theorem rowFrom_eq (i j count : Nat) :
    rowFrom cost limit (similarity i) j (cell cost limit similarity (i + 1) j)
        (cell cost limit similarity i j)
        ((List.range' (j + 1) count).map (cell cost limit similarity i)) =
      (List.range' (j + 1) count).map (cell cost limit similarity (i + 1)) := by
  induction count generalizing j with
  | zero => rfl
  | succ count ih =>
    rw [List.range'_succ, List.map_cons, List.map_cons, rowFrom, ← ih, cell]

/-- **A row of the table holds its cells.** -/
theorem row_eq (m n : Nat) :
    row cost limit similarity m n =
      (List.range' 0 (m + 1)).map (cell cost limit similarity n) := by
  induction n with
  | zero =>
    rw [row, ← firstRow_eq, cell]
  | succ n ih =>
    rw [row, ih, List.range'_succ, List.map_cons, List.map_cons, nextRow, ← cell, rowFrom_eq]

/-- The script of the aligner is the one in the last cell. -/
theorem scriptBy_eq (n m : Nat) :
    scriptBy cost limit n m similarity = (cell cost limit similarity n m).steps.reverse := by
  have hlast : (row cost limit similarity m n).getLast? =
      some (cell cost limit similarity n m) := by
    rw [row_eq, List.range'_1_concat, List.map_append, Nat.zero_add]
    exact List.getLast?_concat
  rw [scriptBy, hlast]

variable {cost limit similarity}

/-! ### What a cell is chosen for -/

theorem pairing?_eq_some_iff {s : Similarity} {step : EditStep} {price : Nat} :
    pairing? cost limit s = some (step, price) ↔
      step = .same ∧ s.different = 0 ∧ price = 0 ∨
      step = .modified ∧ 0 < s.different ∧ price = cost s ∧ price < limit := by
  unfold pairing? Similarity.isIdentical
  grind

/-- A cell ends in an insertion, in a deletion that is cheaper, or in a pairing. -/
theorem choose_cases (cost : Similarity → Nat) (limit : Nat) (s : Similarity)
    (left diag up : Cell) :
    choose cost limit s left diag up = left.extend .inserted uniqueCost ∨
    choose cost limit s left diag up = up.extend .deleted uniqueCost ∧ up.cost < left.cost ∨
    ∃ step price, pairing? cost limit s = some (step, price) ∧
      choose cost limit s left diag up = diag.extend step price := by
  unfold choose Cell.extend
  grind

theorem cost_choose_le (cost : Similarity → Nat) (limit : Nat) (s : Similarity)
    (left diag up : Cell) :
    (choose cost limit s left diag up).cost ≤ left.cost + uniqueCost ∧
    (choose cost limit s left diag up).cost ≤ up.cost + uniqueCost ∧
    ∀ step price, pairing? cost limit s = some (step, price) →
      (choose cost limit s left diag up).cost ≤ diag.cost + price := by
  unfold choose Cell.extend
  grind

variable (cost limit similarity)

/-- One element more of the old list can be deleted. -/
theorem cost_cell_le_deleted (i j : Nat) :
    (cell cost limit similarity (i + 1) j).cost ≤
      (cell cost limit similarity i j).cost + uniqueCost := by
  cases j with
  | zero =>
    rw [cell]
    exact Nat.le_refl _
  | succ j =>
    rw [cell]
    exact (cost_choose_le ..).2.1

variable {cost limit similarity}

/-- The scripts between the first `i` elements of the old list and the first `j` of the new one, and
what each costs: leaving out an element costs 100, elements are paired as equal if they do not
differ, and as modified if they do and the cost of that is below the limit. -/
inductive Priced (cost : Similarity → Nat) (limit : Nat) (similarity : Nat → Nat → Similarity) :
    Nat → Nat → List EditStep → Nat → Prop where
  | nil : Priced cost limit similarity 0 0 [] 0
  | same {i j total : Nat} {steps : List EditStep}
      (h : Priced cost limit similarity i j steps total)
      (hequal : (similarity i j).different = 0) :
    Priced cost limit similarity (i + 1) (j + 1) (steps ++ [.same]) total
  | modified {i j total : Nat} {steps : List EditStep}
      (h : Priced cost limit similarity i j steps total) (hdiffer : 0 < (similarity i j).different)
      (hlimit : cost (similarity i j) < limit) :
    Priced cost limit similarity (i + 1) (j + 1) (steps ++ [.modified])
      (total + cost (similarity i j))
  | deleted {i j total : Nat} {steps : List EditStep}
      (h : Priced cost limit similarity i j steps total) :
    Priced cost limit similarity (i + 1) j (steps ++ [.deleted]) (total + 100)
  | inserted {i j total : Nat} {steps : List EditStep}
      (h : Priced cost limit similarity i j steps total) :
    Priced cost limit similarity i (j + 1) (steps ++ [.inserted]) (total + 100)

theorem Priced.pair {steps : List EditStep} {step : EditStep} {total price : Nat}
    (h : Priced cost limit similarity i j steps total)
    (hpair : pairing? cost limit (similarity i j) = some (step, price)) :
    Priced cost limit similarity (i + 1) (j + 1) (steps ++ [step]) (total + price) := by
  obtain ⟨rfl, hequal, rfl⟩ | ⟨rfl, hdiffer, rfl, hlimit⟩ := pairing?_eq_some_iff.mp hpair
  · exact h.same hequal
  · exact h.modified hdiffer hlimit

/-- Costs that agree on what is compared give the same rules. -/
theorem Priced.congr {steps : List EditStep} {total : Nat}
    (h : Priced cost limit similarity i j steps total)
    (heq : ∀ i' < i, ∀ j' < j, cost (similarity i' j') = cost' (similarity i' j')) :
    Priced cost' limit similarity i j steps total := by
  induction h with
  | nil => exact .nil
  | same _ hequal ih =>
    exact (ih fun i' hi j' hj => heq i' (Nat.lt_succ_of_lt hi) j' (Nat.lt_succ_of_lt hj)).same
      hequal
  | @modified i j _ _ _ hdiffer hlimit ih =>
    have hcost := heq i (Nat.lt_succ_self i) j (Nat.lt_succ_self j)
    rw [hcost] at hlimit ⊢
    exact (ih fun i' hi j' hj => heq i' (Nat.lt_succ_of_lt hi) j' (Nat.lt_succ_of_lt hj)).modified
      hdiffer hlimit
  | deleted _ ih => exact (ih fun i' hi => heq i' (Nat.lt_succ_of_lt hi)).deleted
  | inserted _ ih => exact (ih fun i' hi j' hj => heq i' hi j' (Nat.lt_succ_of_lt hj)).inserted

/-- **A cell holds a script that obeys the rules, with its cost.** -/
theorem cell_priced (cost : Similarity → Nat) (limit i j : Nat)
    (similarity : Nat → Nat → Similarity) :
    Priced cost limit similarity i j (cell cost limit similarity i j).steps.reverse
      (cell cost limit similarity i j).cost := by
  fun_induction cell cost limit similarity i j with
  | case1 => exact .nil
  | case2 j ih =>
    rw [Cell.extend, List.reverse_cons]
    exact ih.inserted
  | case3 i ih =>
    rw [Cell.extend, List.reverse_cons]
    exact ih.deleted
  | case4 i j hleft hdiag hup =>
    obtain h | ⟨h, -⟩ | ⟨step, price, hpair, h⟩ := choose_cases cost limit (similarity i j)
      (cell cost limit similarity (i + 1) j) (cell cost limit similarity i j)
      (cell cost limit similarity i (j + 1))
    · rw [h, Cell.extend, List.reverse_cons]
      exact hleft.inserted
    · rw [h, Cell.extend, List.reverse_cons]
      exact hup.deleted
    · rw [h, Cell.extend, List.reverse_cons]
      exact hdiag.pair hpair

/-- The script of the aligner obeys the rules, at the cost of the last cell. -/
theorem scriptBy_priced (cost : Similarity → Nat) (limit n m : Nat)
    (similarity : Nat → Nat → Similarity) :
    Priced cost limit similarity n m (scriptBy cost limit n m similarity)
      (cell cost limit similarity n m).cost := by
  rw [scriptBy_eq]
  exact cell_priced cost limit n m similarity

/-! ### Costs in machine words -/

/-- A cell whose script ends in an insertion is chosen for it. -/
theorem cell_eq_of_head?_inserted
    (h : (cell cost limit similarity i (j + 1)).steps.head? = some .inserted) :
    cell cost limit similarity i (j + 1) = (cell cost limit similarity i j).extend .inserted
      uniqueCost := by
  cases i with
  | zero => rw [cell]
  | succ i =>
    rw [cell] at h ⊢
    obtain hchosen | ⟨hchosen, -⟩ | ⟨step, price, hpair, hchosen⟩ :=
      choose_cases cost limit (similarity i j)
      (cell cost limit similarity (i + 1) j) (cell cost limit similarity i j)
        (cell cost limit similarity i (j + 1))
    · exact hchosen
    · rw [hchosen] at h
      cases h
    · rw [hchosen] at h
      cases h
      obtain ⟨h, -⟩ | ⟨h, -⟩ := pairing?_eq_some_iff.mp hpair <;> cases h

theorem steps_cell_zero_right (cost : Similarity → Nat) (limit i : Nat)
    (similarity : Nat → Nat → Similarity) :
    (cell cost limit similarity i 0).steps = List.replicate i .deleted := by
  induction i with
  | zero => rw [cell, List.replicate]
  | succ i ih => rw [cell, Cell.extend, ih, List.replicate]

/-- **In the script of a cell, no deletion follows an insertion directly.**  The steps stand last
one first. -/
theorem isChain_cell (cost : Similarity → Nat) (limit i j : Nat)
    (similarity : Nat → Nat → Similarity) :
    (cell cost limit similarity i j).steps.IsChain fun later earlier =>
      ¬ (later = .deleted ∧ earlier = .inserted) := by
  fun_induction cell cost limit similarity i j with
  | case1 => exact .nil
  | case2 j ih => exact List.isChain_cons.mpr ⟨nofun, ih⟩
  | case3 i ih =>
    refine List.isChain_cons.mpr ⟨fun step hstep h => ?_, ih⟩
    rw [steps_cell_zero_right, h.2] at hstep
    exact absurd (List.eq_of_mem_replicate (List.mem_of_mem_head? hstep)) (by decide)
  | case4 i j hleft hdiag hup =>
    obtain h | ⟨h, hcheaper⟩ | ⟨step, price, hpair, h⟩ := choose_cases cost limit (similarity i j)
      (cell cost limit similarity (i + 1) j) (cell cost limit similarity i j)
      (cell cost limit similarity i (j + 1))
    · rw [h]
      exact List.isChain_cons.mpr ⟨nofun, hleft⟩
    · rw [h]
      refine List.isChain_cons.mpr ⟨fun step hstep ⟨_, hinserted⟩ => ?_, hup⟩
      -- with the insertion last the cell would cost no more: its left neighbour can delete, too
      have hcost : (cell cost limit similarity i (j + 1)).cost =
          (cell cost limit similarity i j).cost + uniqueCost := by
        rw [cell_eq_of_head?_inserted (hinserted ▸ hstep), Cell.extend]
      have hdeleted := cost_cell_le_deleted cost limit similarity i j
      omega
    · rw [h]
      refine List.isChain_cons.mpr ⟨fun _ _ ⟨hdeleted, _⟩ => ?_, hdiag⟩
      obtain ⟨hstep, -⟩ | ⟨hstep, -⟩ :=
        pairing?_eq_some_iff.mp hpair <;> cases hstep.symm.trans hdeleted

theorem isChain_script (limit n m : Nat) (similarity : Nat → Nat → Similarity) :
    (script limit n m similarity).IsChain fun earlier later =>
      ¬ (later = .deleted ∧ earlier = .inserted) := by
  rw [script, scriptBy_eq]
  exact List.isChain_reverse.mpr (isChain_cell modifiedCost limit n m similarity)

/-- Unpaired steps none of which is a deletion directly behind an insertion. -/
theorem exists_replicate_of_isChain {run : List EditStep}
    (hrun : run.IsChain fun earlier later => ¬ (later = .deleted ∧ earlier = .inserted))
    (hunpaired : ∀ step ∈ run, step = .deleted ∨ step = .inserted) :
    ∃ a b, run = List.replicate a .deleted ++ List.replicate b .inserted := by
  induction run with
  | nil => exact ⟨0, 0, rfl⟩
  | cons step run ih =>
    obtain ⟨hhead, hrest⟩ := List.isChain_cons.mp hrun
    obtain ⟨hstep, hsteps⟩ := List.forall_mem_cons.mp hunpaired
    obtain ⟨a, b, rfl⟩ := ih hrest hsteps
    obtain rfl | rfl := hstep
    · exact ⟨a + 1, b, rfl⟩
    · cases a with
      | zero => exact ⟨0, b + 1, rfl⟩
      | succ a => exact absurd ⟨rfl, rfl⟩ (hhead .deleted rfl)

/-- **Where elements of both lists are unpaired, the deletions come before the insertions.**  No
insertion is directly followed by a deletion, and a stretch of unpaired steps is deletions and then
insertions. -/
theorem script_deletions_first (limit n m : Nat) (similarity : Nat → Nat → Similarity) :
    ¬ [.inserted, .deleted] <:+: script limit n m similarity ∧
    ∀ run, run <:+: script limit n m similarity →
    (∀ step ∈ run, step = .deleted ∨ step = .inserted) →
      ∃ a b, run = List.replicate a .deleted ++ List.replicate b .inserted := by
  have hchain {run : List EditStep} (h : run <:+: script limit n m similarity) :=
    List.IsChain.infix (isChain_script limit n m similarity) h
  refine ⟨fun h => ?_, fun run h => exists_replicate_of_isChain (hchain h)⟩
  exact (List.isChain_cons_cons.mp (hchain h)).1 ⟨rfl, rfl⟩

end Alignment

end Graft
