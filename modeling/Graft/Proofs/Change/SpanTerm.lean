import Graft.Proofs.Change.SpanSet
import Mathlib.Data.List.Pairwise

/-! # Sets of positions by the calls that made them

A term writes down how a set of positions was put together: out of nothing, by inserting and
removing spans and by joining and subtracting other sets (`SpanTerm`).  It is read twice, as the set
that the calls leave behind (`SpanTerm.value`) and as the positions that union and difference of the
spans say it has (`SpanTerm.Member`).  The two agree, and the set is normal whatever the spans were,
so that terms with the same members are the same list of spans (`SpanTerm.value_represents`).

The queries of a set are questions about its members then.  A span meets a normal set where the two
share a position, and a place lies inside a run exactly if the positions on both sides of it are
members: two runs never touch, so the two positions belong to one run.  For the same reason the ends
of runs are the places that follow a member and are none (`SpanSet.endsAt_iff`).
-/

namespace Graft

/-- The position before the given one; nowhere if there is none. -/
def Pos.pred (p : Pos) : Pos := ⟨p.index - 1⟩

/-- How a set of positions was put together. -/
inductive SpanTerm where
  | empty
  | insert (x : SpanTerm) (r : Span)
  | remove (x : SpanTerm) (r : Span)
  | union (x y : SpanTerm)
  | subtract (x y : SpanTerm)

namespace SpanTerm

/-- The set that the calls leave behind. -/
def value : SpanTerm → SpanSet
  | empty => .empty
  | insert x r => x.value.insert r
  | remove x r => x.value.remove r
  | union x y => x.value.union y.value
  | subtract x y => x.value.subtract y.value

/-- Whether a position is in what was inserted and not removed afterwards. -/
def Member : SpanTerm → Pos → Prop
  | empty, _ => False
  | insert x r, p => x.Member p ∨ r.Holds p
  | remove x r, p => x.Member p ∧ ¬ r.Holds p
  | union x y, p => x.Member p ∨ y.Member p
  | subtract x y, p => x.Member p ∧ ¬ y.Member p

end SpanTerm

namespace SpanSet

variable {s : SpanSet} {ss : List Span} {p e : Pos}

/-- Whether a set has the given members and answers all questions by them. -/
structure Represents (s : SpanSet) (M : Pos → Prop) : Prop where
  normal : s.Normal
  contains : ∀ p, s.contains p = true ↔ M p
  /-- A span with positions meets the set where they share one. -/
  intersects : ∀ r : Span, r.isValid = true → r.isEmpty = false →
    (s.intersects r = true ↔ ∃ p, r.Holds p ∧ M p)
  /-- A span without positions meets the set where its place has members on both sides. -/
  intersects_emptyAt : ∀ p, s.intersects (.emptyAt p) = true ↔ M p.pred ∧ M p
  /-- The last end before a place is the greatest one. -/
  lastEndBefore? : ∀ p e, s.lastEndBefore? p = some e ↔
    (e ≤ p ∧ M e.pred ∧ ¬ M e) ∧ ∀ e', e' ≤ p ∧ M e'.pred ∧ ¬ M e' → e' ≤ e
  lastEndBefore?_none : ∀ p, s.lastEndBefore? p = none ↔ ∀ e, ¬ (e ≤ p ∧ M e.pred ∧ ¬ M e)

/-! ### Runs -/

/-- Two runs are the same, or one ends before the other begins. -/
theorem AreRuns.eq_or_apart (h : AreRuns ss) {a b : Span} (ha : a ∈ ss) (hb : b ∈ ss) :
    a = b ∨ a.stop < b.start ∨ b.stop < a.start := by
  by_cases hab : a = b
  · exact .inl hab
  · refine .inr ?_
    have hapart : ss.Pairwise fun a b => a.stop < b.start ∨ b.stop < a.start :=
      h.apart.imp fun hlt => Or.inl hlt
    have : Std.Symm fun a b : Span => a.stop < b.start ∨ b.stop < a.start := ⟨fun _ _ => Or.symm⟩
    exact hapart.forall ha hb hab

/-- The positions on both sides of a place are in runs exactly if one run stretches across it. -/
theorem AreRuns.reach_both_iff (h : AreRuns ss) :
    Reach ss p.pred ∧ Reach ss p ↔ ∃ a ∈ ss, a.start < p ∧ p < a.stop := by
  constructor
  · rintro ⟨⟨a, ha, hleft, hright⟩, ⟨b, hb, hleft', hright'⟩⟩
    refine ⟨b, hb, ?_, hright'⟩
    have hproper := h.proper a ha
    have htwo := h.eq_or_apart ha hb
    simp only [Pos.isValid, bne_iff_ne, Pos.pred, Pos.le_def, Pos.lt_def] at *
    rcases htwo with rfl | hlt | hlt
    · omega
    · omega
    · omega
  · rintro ⟨a, ha, hleft, hright⟩
    refine ⟨⟨a, ha, ?_, ?_⟩, ⟨a, ha, Nat.le_of_lt hleft, hright⟩⟩
    all_goals
      simp only [Pos.pred, Pos.le_def, Pos.lt_def] at *
      omega

/-- **Runs end where a position of theirs is followed by none.** -/
theorem AreRuns.endsAt_iff (h : AreRuns ss) :
    Reach ss e.pred ∧ ¬ Reach ss e ↔ ∃ a ∈ ss, a.stop = e := by
  constructor
  · rintro ⟨⟨a, ha, hleft, hright⟩, hend⟩
    refine ⟨a, ha, ?_⟩
    have hproper := h.proper a ha
    have hout : ¬ (a.start ≤ e ∧ e < a.stop) := fun hin => hend ⟨a, ha, hin⟩
    obtain ⟨⟨i⟩, ⟨j⟩⟩ := a
    obtain ⟨k⟩ := e
    simp only [Pos.isValid, bne_iff_ne, Pos.pred, Pos.le_def, Pos.lt_def, Pos.mk.injEq] at *
    omega
  · rintro ⟨a, ha, rfl⟩
    have hproper := h.proper a ha
    refine ⟨⟨a, ha, ?_, ?_⟩, ?_⟩
    · simp only [Pos.pred, Pos.le_def, Pos.lt_def] at *
      omega
    · simp only [Pos.pred, Pos.lt_def] at *
      omega
    · rintro ⟨b, hb, hleft, hright⟩
      have hproper' := h.proper b hb
      have htwo := h.eq_or_apart ha hb
      simp only [Pos.le_def, Pos.lt_def] at *
      rcases htwo with rfl | hlt | hlt
      · omega
      · omega
      · omega

/-! ### Queries -/

theorem intersects_iff (hs : s.Normal) {r : Span} (hvalid : r.isValid = true)
    (hempty : r.isEmpty = false) :
    s.intersects r = true ↔ ∃ p, r.Holds p ∧ s.contains p = true := by
  have hlt : r.start < r.stop := by
    simpa [Span.isEmpty, Pos.le_def, Pos.lt_def] using hempty
  have hne : ¬ r.start = r.stop := by
    rintro heq
    rw [heq] at hlt
    exact Nat.lt_irrefl _ hlt
  simp only [intersects, hvalid, Bool.true_and, List.any_eq_true, if_neg hne, decide_eq_true_eq]
  constructor
  · rintro ⟨a, ha, hstart, hstop⟩
    have hproper := (hs.proper a ha).2
    -- the later of the two beginnings is in both
    refine ⟨max a.start r.start, ⟨hvalid, ?_, ?_⟩, (contains_iff hs).mpr ⟨a, ha, ?_, ?_⟩⟩
    all_goals
      simp only [Pos.le_def, Pos.lt_def, Pos.index_max] at *
      omega
  · rintro ⟨p, ⟨-, hle, hlt⟩, hp⟩
    obtain ⟨a, ha, hstart, hstop⟩ := (contains_iff hs).mp hp
    exact ⟨a, ha, Nat.lt_of_le_of_lt hstart hlt, Nat.lt_of_le_of_lt hle hstop⟩

theorem intersects_emptyAt_iff (hs : s.Normal) :
    s.intersects (.emptyAt p) = true ↔ s.contains p.pred = true ∧ s.contains p = true := by
  rw [contains_iff hs, contains_iff hs, AreRuns.reach_both_iff hs]
  simp only [intersects, Span.emptyAt, if_true, Bool.and_eq_true, List.any_eq_true]
  constructor
  · rintro ⟨-, a, ha, hin⟩
    exact ⟨a, ha, of_decide_eq_true hin⟩
  · rintro ⟨a, ha, hstart, hstop⟩
    refine ⟨?_, a, ha, decide_eq_true ⟨hstart, hstop⟩⟩
    simp only [Span.isValid, Pos.isValid, Bool.and_eq_true, bne_iff_ne,
      decide_eq_true_eq, Pos.le_def, Pos.lt_def] at hstart ⊢
    omega

/-- Whether a place ends a run of a set. -/
def EndsAt (s : SpanSet) (e : Pos) : Prop := s.contains e.pred = true ∧ ¬ s.contains e = true

theorem endsAt_iff (hs : s.Normal) : s.EndsAt e ↔ ∃ a ∈ s.spans, a.stop = e := by
  rw [EndsAt, contains_iff hs, contains_iff hs]
  exact AreRuns.endsAt_iff hs

/-- No run ends nowhere. -/
theorem isValid_of_endsAt (hs : s.Normal) (he : s.EndsAt e) (hle : e ≤ p) : p.isValid = true := by
  obtain ⟨a, ha, rfl⟩ := (endsAt_iff hs).mp he
  have hproper := (hs.proper a ha).2
  simp only [Pos.isValid, bne_iff_ne, Pos.le_def, Pos.lt_def] at *
  omega

theorem lastEndBefore?_eq_none_iff (hs : s.Normal) :
    s.lastEndBefore? p = none ↔ ∀ e, ¬ (e ≤ p ∧ s.EndsAt e) := by
  unfold SpanSet.lastEndBefore?
  split
  · simp only [Option.map_eq_none_iff, List.find?_eq_none, List.mem_reverse, decide_eq_true_eq]
    constructor
    · rintro h e ⟨hle, he⟩
      obtain ⟨a, ha, rfl⟩ := (endsAt_iff hs).mp he
      exact h a ha hle
    · intro h a ha hle
      exact h a.stop ⟨hle, (endsAt_iff hs).mpr ⟨a, ha, rfl⟩⟩
  · rename_i hp
    exact ⟨fun _ e ⟨hle, he⟩ => hp (isValid_of_endsAt hs he hle), fun _ => rfl⟩

theorem lastEndBefore?_eq_some_iff (hs : s.Normal) :
    s.lastEndBefore? p = some e ↔ (e ≤ p ∧ s.EndsAt e) ∧ ∀ e', e' ≤ p ∧ s.EndsAt e' → e' ≤ e := by
  -- there is one answer at most, so that it is enough to look at what is found
  have hanswer {e₁ : Pos} (h : s.lastEndBefore? p = some e₁) :
      (e₁ ≤ p ∧ s.EndsAt e₁) ∧ ∀ e', e' ≤ p ∧ s.EndsAt e' → e' ≤ e₁ := by
    unfold SpanSet.lastEndBefore? at h
    split at h
    · obtain ⟨a, ha, rfl⟩ := Option.map_eq_some_iff.mp h
      obtain ⟨hle, back, front, hsplit, hback⟩ := List.find?_eq_some_iff_append.mp ha
      have hspans : s.spans = front.reverse ++ a :: back.reverse := by
        rw [← List.reverse_reverse s.spans, hsplit]
        simp
      have hmem : a ∈ s.spans := by
        rw [hspans]
        exact List.mem_append_right _ List.mem_cons_self
      refine ⟨⟨of_decide_eq_true hle, (endsAt_iff hs).mpr ⟨a, hmem, rfl⟩⟩, ?_⟩
      rintro e' ⟨hle', he'⟩
      obtain ⟨b, hb, rfl⟩ := (endsAt_iff hs).mp he'
      rw [hspans] at hb
      rcases List.mem_append.mp hb with hb | hb
      · -- runs in front of the one found end before it begins
        have hapart := hs.apart
        rw [hspans] at hapart
        have hlt := (List.pairwise_append.mp hapart).2.2 b hb a List.mem_cons_self
        have hproper := (hs.proper a hmem).2
        simp only [Pos.le_def, Pos.lt_def] at *
        omega
      · rcases List.mem_cons.mp hb with rfl | hb
        · exact Nat.le_refl _
        · have hout := hback b (List.mem_reverse.mp hb)
          simp only [Bool.not_eq_true', decide_eq_false_iff_not] at hout
          exact absurd hle' hout
    · cases h
  constructor
  · exact hanswer
  · rintro ⟨hend, hgreatest⟩
    cases hfound : s.lastEndBefore? p with
    | none => exact absurd hend ((lastEndBefore?_eq_none_iff hs).mp hfound e)
    | some e₁ =>
      obtain ⟨hend₁, hgreatest₁⟩ := hanswer hfound
      have hle := hgreatest e₁ hend₁
      have hle₁ := hgreatest₁ e hend
      obtain ⟨i⟩ := e
      obtain ⟨j⟩ := e₁
      simp only [Pos.le_def] at hle hle₁
      rw [Nat.le_antisymm hle hle₁]

/-- A normal set answers by its members. -/
theorem Normal.represents (hs : s.Normal) {M : Pos → Prop} (hM : ∀ p, s.contains p = true ↔ M p) :
    s.Represents M where
  normal := hs
  contains := hM
  intersects r hvalid hempty := by
    rw [intersects_iff hs hvalid hempty]
    simp only [hM]
  intersects_emptyAt p := by
    rw [intersects_emptyAt_iff hs, hM, hM]
  lastEndBefore? p e := by
    rw [lastEndBefore?_eq_some_iff hs]
    simp only [EndsAt, hM]
  lastEndBefore?_none p := by
    rw [lastEndBefore?_eq_none_iff hs]
    simp only [EndsAt, hM]

end SpanSet

namespace SpanTerm

open SpanSet

theorem normal_value (x : SpanTerm) : x.value.Normal := by
  induction x with
  | empty => exact normal_empty
  | insert x r ih => exact ih.insert r
  | remove x r ih => exact ih.remove r
  | union x y ihx _ => exact ihx.union _
  | subtract x y ihx _ => exact ihx.subtract _

theorem contains_value (x : SpanTerm) (p : Pos) : x.value.contains p = true ↔ x.Member p := by
  induction x with
  | empty => simp [value, Member, contains_empty]
  | insert x r ih => rw [value, contains_insert x.normal_value, ih, Member, or_comm]
  | remove x r ih => rw [value, contains_remove x.normal_value, ih, Member]
  | union x y ihx ihy => rw [value, contains_union x.normal_value y.normal_value, ihx, ihy, Member]
  | subtract x y ihx ihy =>
    rw [value, contains_subtract x.normal_value y.normal_value, ihx, ihy, Member]

/-- **However a set of positions was put together, it has the positions that union and difference
say, and answers by them.**  Its spans are its maximal runs, so that two sets with the same members
are the same. -/
theorem value_represents (x : SpanTerm) :
    x.value.Represents x.Member ∧ ∀ y : SpanTerm, (∀ p, x.Member p ↔ y.Member p) →
      x.value = y.value := by
  refine ⟨x.normal_value.represents x.contains_value, fun y hxy => ?_⟩
  refine x.normal_value.ext y.normal_value fun p => ?_
  rw [x.contains_value, y.contains_value]
  exact hxy p

/-- Two spans that touch, and one that is cut out of the middle of a third, beside an empty and a
reversed one: the same set put together in two ways. -/
theorem value_represents_touching :
    let span (i j : Nat) : Span := ⟨⟨i⟩, ⟨j⟩⟩
    let x : SpanTerm :=
      .insert (.insert (.insert (.insert .empty (span 5 9)) (span 2 5)) (span 7 7)) (span 20 3)
    let y : SpanTerm := .subtract (.insert .empty (span 2 12)) (.insert .empty (span 9 15))
    x.value = y.value ∧ x.value.spans = [span 2 9] ∧ (x.Member ⟨4⟩ ∧ x.Member ⟨5⟩) ∧
      x.value.lastEndBefore? ⟨30⟩ = some ⟨9⟩ := by
  intro span x y
  have hmember (p : Pos) : x.Member p ↔ y.Member p := by
    simp only [x, y, span, Member, Span.Holds, Span.isValid, Pos.isValid, Pos.le_def, Pos.lt_def]
    simp
    omega
  obtain ⟨hx, hsame⟩ := value_represents x
  exact ⟨hsame y hmember, by decide, (hx.intersects_emptyAt ⟨5⟩).mp (by decide), by decide⟩

end SpanTerm

end Graft
