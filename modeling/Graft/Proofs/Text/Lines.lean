import Graft.Proofs.Text.Slice

/-! # Lines of a text

A line begins behind each newline.  So no place is on a line above that of an earlier one
(`LineTable.line?_mono`), and a place behind a newline is on a line below that of any place before
it (`LineTable.line?_lt`).
-/

namespace Graft.LineTable

theorem startsBehindNewlines_append (offset : Nat) (a b : List Char) :
    startsBehindNewlines offset (a ++ b) =
      startsBehindNewlines offset a ++ startsBehindNewlines (offset + byteLength a) b := by
  induction a generalizing offset with
  | nil => rfl
  | cons c a ih =>
    rw [List.cons_append, startsBehindNewlines, startsBehindNewlines, ih, byteLength_cons,
      Nat.add_assoc]
    split <;> rfl

theorem startsBehindNewlines_of_not_mem {a : List Char} (h : '\n' ∉ a) (offset : Nat) :
    startsBehindNewlines offset a = [] := by
  induction a generalizing offset with
  | nil => rfl
  | cons c a ih =>
    rw [List.mem_cons, not_or] at h
    rw [startsBehindNewlines, if_neg (Ne.symm h.1), ih h.2]

theorem line?_eq_some_iff {t : LineTable} {p : Pos} {l : Nat} :
    t.line? p = some l ↔ ∃ offset, p.offset? = some offset ∧
      (t.starts.takeWhile (· ≤ offset)).length = l + 1 := by
  cases hp : p.offset? with
  | none => simp [line?, lineCol?, hp]
  | some offset =>
    cases hlast : (t.starts.takeWhile (· ≤ offset)).getLast? with
    | none => simp [line?, lineCol?, hp, List.getLast?_eq_none_iff.mp hlast]
    | some start =>
      have hpos := List.length_pos_of_mem (List.mem_of_getLast? hlast)
      simp [line?, lineCol?, hp, hlast]
      omega

theorem length_takeWhile_le (ns : List Nat) {i j : Nat} (h : i ≤ j) :
    (ns.takeWhile (· ≤ i)).length ≤ (ns.takeWhile (· ≤ j)).length := by
  induction ns with
  | nil => exact Nat.le_refl _
  | cons n ns ih =>
    rw [List.takeWhile_cons, List.takeWhile_cons]
    split
    · rename_i hn
      rw [if_pos (decide_eq_true (Nat.le_trans (of_decide_eq_true hn) h))]
      exact Nat.succ_le_succ ih
    · exact Nat.zero_le _

/-- No position is on a line above that of an earlier one. -/
theorem line?_mono {t : LineTable} {p q : Pos} (h : p ≤ q) {l : Nat} (hl : t.line? p = some l) :
    ∃ m, t.line? q = some m ∧ l ≤ m := by
  obtain ⟨i, hp, hlength⟩ := line?_eq_some_iff.mp hl
  obtain ⟨j, hq, hij⟩ : ∃ j, q.offset? = some j ∧ i ≤ j := by
    obtain ⟨m⟩ := p
    obtain ⟨n⟩ := q
    cases m with
    | zero => cases hp
    | succ m =>
      cases n with
      | zero => cases h
      | succ n =>
        cases hp
        exact ⟨n, rfl, Nat.le_of_succ_le_succ h⟩
  have hle := length_takeWhile_le t.starts hij
  exact ⟨_, line?_eq_some_iff.mpr ⟨j, hq, (Nat.sub_add_cancel (by omega)).symm⟩, by omega⟩

/-- Lines begin in order, behind the beginning of the text. -/
theorem pairwise_startsBehindNewlines (offset : Nat) (cs : List Char) :
    (offset :: startsBehindNewlines offset cs).Pairwise (· < ·) := by
  induction cs generalizing offset with
  | nil => exact List.pairwise_singleton _ _
  | cons c cs ih =>
    have hsize := c.utf8Size_pos
    obtain ⟨hbehind, hrest⟩ := List.pairwise_cons.mp (ih (offset + c.utf8Size))
    rw [startsBehindNewlines]
    split
    · exact List.pairwise_cons.mpr ⟨List.forall_mem_cons.mpr ⟨by omega, fun m hm => by
        have hlt := hbehind m hm
        omega⟩, ih _⟩
    · exact List.pairwise_cons.mpr ⟨fun m hm => by
        have hlt := hbehind m hm
        omega, hrest⟩

theorem length_takeWhile_lt {ns : List Nat} (hns : ns.Pairwise (· < ·)) {i j m : Nat}
    (hm : m ∈ ns) (hi : i < m) (hj : m ≤ j) :
    (ns.takeWhile (· ≤ i)).length < (ns.takeWhile (· ≤ j)).length := by
  induction ns with
  | nil => cases hm
  | cons n ns ih =>
    obtain ⟨hbehind, hns⟩ := List.pairwise_cons.mp hns
    have hn : n ≤ j := by
      rcases List.mem_cons.mp hm with rfl | hm
      · exact hj
      · have hlt := hbehind m hm
        omega
    rw [List.takeWhile_cons, List.takeWhile_cons, if_pos (decide_eq_true hn)]
    split
    · rename_i hni
      have hni : n ≤ i := of_decide_eq_true hni
      have hm : m ∈ ns := (List.mem_cons.mp hm).resolve_left (by omega)
      exact Nat.succ_lt_succ (ih hns hm)
    · exact Nat.succ_pos _

/-- Every place of a text is on a line. -/
theorem exists_line? (cs : List Char) (n : Nat) :
    ∃ l, (ofText cs).line? (.atOffset n) = some l := by
  have hfirst : ((ofText cs).starts.takeWhile (· ≤ n)).length ≠ 0 := by simp [ofText]
  exact ⟨_, line?_eq_some_iff.mpr ⟨n, Pos.offset?_atOffset n, (Nat.sub_add_cancel (by omega)).symm⟩⟩

/-- A place from the beginning of a line on is on a line below that of a place before it. -/
theorem line?_lt {cs : List Char} {m : Nat} (hm : m ∈ startsBehindNewlines 0 cs) {p q : Pos}
    (hp : p < .atOffset m) (hq : .atOffset m ≤ q) {l : Nat} (hl : (ofText cs).line? p = some l) :
    ∃ k, (ofText cs).line? q = some k ∧ l < k := by
  obtain ⟨i, hi, hlength⟩ := line?_eq_some_iff.mp hl
  obtain ⟨n⟩ := p
  obtain ⟨n'⟩ := q
  cases n with
  | zero => cases hi
  | succ n =>
    cases n' with
    | zero => cases hq
    | succ n' =>
      cases hi
      have hlt : ((ofText cs).starts.takeWhile (· ≤ i)).length <
          ((ofText cs).starts.takeWhile (· ≤ n')).length :=
        length_takeWhile_lt (pairwise_startsBehindNewlines 0 cs) (List.mem_cons_of_mem _ hm)
          (Nat.lt_of_succ_lt_succ hp) (Nat.le_of_succ_le_succ hq)
      exact ⟨_, line?_eq_some_iff.mpr ⟨n', rfl, (Nat.sub_add_cancel (by omega)).symm⟩, by omega⟩

end Graft.LineTable
