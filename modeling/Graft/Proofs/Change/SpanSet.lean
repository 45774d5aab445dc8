import Graft.Change.SpanSet

/-! # Sets of positions by their members

A set of positions is **normal** when its spans are the maximal runs of its positions in order.
Every operation keeps sets normal and does to the positions what its name says
(`SpanSet.contains_insert`, `contains_remove`, `contains_union`, `contains_subtract`).  A normal set
is determined by its positions (`SpanSet.Normal.ext`), so however it was put together, it is the
same list of spans.
-/

namespace Graft

/-- Whether a span holds a position.  A span that is not valid holds none, and neither does an empty
or reversed one. -/
def Span.Holds (s : Span) (p : Pos) : Prop := s.isValid = true ∧ s.start ≤ p ∧ p < s.stop

namespace SpanSet

/-- Whether one of some spans reaches over a position. -/
def Reach (ss : List Span) (p : Pos) : Prop := ∃ s ∈ ss, s.start ≤ p ∧ p < s.stop

/-- Whether spans are maximal runs in order: each begins somewhere and holds something, and between
any two of them there is a gap. -/
structure AreRuns (ss : List Span) : Prop where
  proper : ∀ s ∈ ss, s.start.isValid = true ∧ s.start < s.stop
  apart : ss.Pairwise fun s t => s.stop < t.start

/-- Whether a set is kept as its maximal runs. -/
def Normal (s : SpanSet) : Prop := AreRuns s.spans

variable {s t : SpanSet} {r : Span} {p : Pos} {ss ts : List Span}

theorem reach_nil : ¬ Reach [] p := nofun

theorem reach_cons {a : Span} : Reach (a :: ss) p ↔ (a.start ≤ p ∧ p < a.stop) ∨ Reach ss p := by
  simp only [Reach, List.mem_cons, exists_eq_or_imp]

theorem reach_append : Reach (ss ++ ts) p ↔ Reach ss p ∨ Reach ts p := by
  simp only [Reach, List.mem_append, or_and_right, exists_or]

theorem areRuns_cons {a : Span} : AreRuns (a :: ss) ↔
    (a.start.isValid = true ∧ a.start < a.stop) ∧ (∀ b ∈ ss, a.stop < b.start) ∧ AreRuns ss := by
  constructor
  · rintro ⟨hproper, hapart⟩
    obtain ⟨ha, hss⟩ := List.forall_mem_cons.mp hproper
    obtain ⟨hgap, hrest⟩ := List.pairwise_cons.mp hapart
    exact ⟨ha, hgap, hss, hrest⟩
  · rintro ⟨ha, hgap, hss, hrest⟩
    exact ⟨List.forall_mem_cons.mpr ⟨ha, hss⟩, List.pairwise_cons.mpr ⟨hgap, hrest⟩⟩

theorem contains_iff (hs : s.Normal) : s.contains p = true ↔ Reach s.spans p := by
  simp only [contains, Bool.and_eq_true, List.any_eq_true, decide_eq_true_eq]
  refine ⟨And.right, fun h => ⟨?_, h⟩⟩
  obtain ⟨a, ha, hle, -⟩ := h
  have hvalid := (hs.proper a ha).1
  simp only [Pos.isValid, bne_iff_ne, Pos.le_def] at hvalid hle ⊢
  omega

theorem normal_empty : Normal empty := ⟨nofun, .nil⟩

theorem contains_empty : empty.contains p = false := by
  simp [contains, empty]

/-- A span that is worth inserting. -/
theorem proper_iff :
    (r.isValid && !r.isEmpty) = true ↔ r.start.isValid = true ∧ r.start < r.stop := by
  simp only [Span.isValid, Span.isEmpty, Pos.isValid, Bool.and_eq_true, Bool.not_eq_true',
    decide_eq_false_iff_not, decide_eq_true_eq, bne_iff_ne, Pos.le_def, Pos.lt_def]
  omega

theorem holds_iff (hr : (r.isValid && !r.isEmpty) = true) :
    r.Holds p ↔ r.start ≤ p ∧ p < r.stop := by
  have hvalid : r.isValid = true := (Bool.and_eq_true _ _ ▸ hr).1
  simp only [Span.Holds, hvalid, true_and]

theorem not_holds (hr : ¬ (r.isValid && !r.isEmpty) = true) : ¬ r.Holds p := by
  rintro ⟨hvalid, hle, hlt⟩
  apply hr
  have hnonempty : r.isEmpty = false := by
    simp only [Span.isEmpty, decide_eq_false_iff_not, Pos.le_def, Pos.lt_def] at hle hlt ⊢
    omega
  rw [hvalid, hnonempty]
  rfl

/-! ### Inserting -/

/-- Spans behind a place stay behind it when another such span is put among them. -/
theorem lt_of_mem_insertSpan {q : Pos} (hss : ∀ a ∈ ss, q < a.start) (hr : q < r.start) :
    ∀ a ∈ insertSpan r ss, q < a.start := by
  induction ss generalizing r with
  | nil => exact List.forall_mem_singleton.mpr hr
  | cons b ss ih =>
    obtain ⟨hb, hss⟩ := List.forall_mem_cons.mp hss
    rw [insertSpan]
    split
    · exact List.forall_mem_cons.mpr ⟨hb, ih hss hr⟩
    · split
      · exact List.forall_mem_cons.mpr ⟨hr, List.forall_mem_cons.mpr ⟨hb, hss⟩⟩
      · refine ih hss ?_
        simp only [Pos.lt_def, Pos.index_min] at hb hr ⊢
        omega

theorem areRuns_insertSpan (hss : AreRuns ss) (hr : r.start.isValid = true ∧ r.start < r.stop) :
    AreRuns (insertSpan r ss) := by
  induction ss generalizing r with
  | nil => exact areRuns_cons.mpr ⟨hr, nofun, nofun, .nil⟩
  | cons b ss ih =>
    obtain ⟨hb, hgap, hrest⟩ := areRuns_cons.mp hss
    rw [insertSpan]
    split
    · rename_i hbefore
      exact areRuns_cons.mpr ⟨hb, lt_of_mem_insertSpan hgap hbefore, ih hrest hr⟩
    · split
      · rename_i hbehind
        refine areRuns_cons.mpr ⟨hr, List.forall_mem_cons.mpr ⟨hbehind, fun a ha => ?_⟩, hss⟩
        have hlt := hgap a ha
        simp only [Pos.lt_def] at hlt hbehind hb ⊢
        omega
      · refine ih hrest ?_
        simp only [Pos.isValid, bne_iff_ne, Pos.lt_def, Pos.index_min, Pos.index_max] at hb hr ⊢
        omega

theorem reach_insertSpan : Reach (insertSpan r ss) p ↔ (r.start ≤ p ∧ p < r.stop) ∨ Reach ss p := by
  induction ss generalizing r with
  | nil => rw [insertSpan, reach_cons]
  | cons b ss ih =>
    rw [insertSpan]
    split
    · rw [reach_cons, reach_cons, ih, or_left_comm]
    · split
      · rw [reach_cons]
      · -- the two spans touch, so that the span around both holds no position besides theirs
        rename_i hbefore hbehind
        rw [ih, reach_cons, ← or_assoc]
        refine or_congr_left ?_
        simp only [Pos.le_def, Pos.lt_def, Pos.index_min, Pos.index_max] at hbefore hbehind ⊢
        omega

theorem Normal.insert (hs : s.Normal) (r : Span) : (s.insert r).Normal := by
  unfold SpanSet.insert
  split
  · rename_i hr
    exact areRuns_insertSpan hs (proper_iff.mp hr)
  · exact hs

theorem contains_insert (hs : s.Normal) :
    (s.insert r).contains p = true ↔ r.Holds p ∨ s.contains p = true := by
  rw [contains_iff (hs.insert r), contains_iff hs]
  unfold SpanSet.insert
  split
  · rename_i hr
    rw [reach_insertSpan, holds_iff hr]
  · rename_i hr
    exact (or_iff_right (not_holds hr)).symm

/-! ### Removing -/

theorem reach_cutSpan {a : Span} :
    Reach (cutSpan r a) p ↔ (a.start ≤ p ∧ p < a.stop) ∧ ¬ (r.start ≤ p ∧ p < r.stop) := by
  unfold cutSpan
  split
  · rename_i hapart
    rw [reach_cons, or_iff_left reach_nil]
    simp only [Pos.le_def, Pos.lt_def] at hapart ⊢
    omega
  · rename_i hmeet
    have hpiece {q : Prop} [Decidable q] {b : Span} :
        Reach (if q then [b] else []) p ↔ q ∧ b.start ≤ p ∧ p < b.stop := by
      split
      · rename_i hq
        rw [reach_cons, or_iff_left reach_nil, and_iff_right hq]
      · rename_i hq
        exact ⟨fun h => absurd h reach_nil, fun h => absurd h.1 hq⟩
    rw [reach_append, hpiece, hpiece]
    simp only [Pos.le_def, Pos.lt_def] at hmeet ⊢
    omega

/-- What is left of a span lies inside of it. -/
theorem cutSpan_within {a b : Span} (ha : a.start.isValid = true ∧ a.start < a.stop)
    (hb : b ∈ cutSpan r a) :
    (b.start.isValid = true ∧ b.start < b.stop) ∧ a.start ≤ b.start ∧ b.stop ≤ a.stop := by
  simp only [Pos.isValid, bne_iff_ne, Pos.lt_def] at ha
  unfold cutSpan at hb
  split at hb
  · obtain rfl := List.mem_singleton.mp hb
    simp only [Pos.isValid, bne_iff_ne, Pos.lt_def, Pos.le_def]
    omega
  · rename_i hmeet
    simp only [List.mem_append, List.mem_ite_nil_right, List.mem_singleton] at hb
    rcases hb with ⟨hlt, rfl⟩ | ⟨hlt, rfl⟩
    all_goals
      simp only [Pos.isValid, bne_iff_ne, Pos.lt_def, Pos.le_def] at hmeet hlt ⊢
      omega

theorem areRuns_cutSpan {a : Span} (hr : r.start.isValid = true ∧ r.start < r.stop)
    (ha : a.start.isValid = true ∧ a.start < a.stop) : AreRuns (cutSpan r a) := by
  refine ⟨fun b hb => (cutSpan_within ha hb).1, ?_⟩
  unfold cutSpan
  split
  · exact List.pairwise_singleton _ _
  · refine List.pairwise_append.mpr ⟨?_, ?_, fun b hb c hc => ?_⟩
    · split
      · exact List.pairwise_singleton _ _
      · exact .nil
    · split
      · exact List.pairwise_singleton _ _
      · exact .nil
    · simp only [List.mem_ite_nil_right, List.mem_singleton] at hb hc
      rw [hb.2, hc.2]
      exact hr.2

theorem areRuns_flatMap_cutSpan (hss : AreRuns ss)
    (hr : r.start.isValid = true ∧ r.start < r.stop) :
    AreRuns (ss.flatMap (cutSpan r)) := by
  induction ss with
  | nil => exact ⟨nofun, .nil⟩
  | cons a ss ih =>
    obtain ⟨ha, hgap, hrest⟩ := areRuns_cons.mp hss
    obtain ⟨hproper, hapart⟩ := ih hrest
    have hhere := areRuns_cutSpan hr ha
    rw [List.flatMap_cons]
    refine ⟨List.forall_mem_append.mpr ⟨hhere.proper, hproper⟩,
      List.pairwise_append.mpr ⟨hhere.apart, hapart, fun b hb c hc => ?_⟩⟩
    obtain ⟨d, hd, hc⟩ := List.mem_flatMap.mp hc
    have hbefore := (cutSpan_within ha hb).2.2
    have hbehind := (cutSpan_within (hrest.proper d hd) hc).2.1
    have hlt := hgap d hd
    simp only [Pos.lt_def, Pos.le_def] at hbefore hbehind hlt ⊢
    omega

theorem reach_flatMap_cutSpan :
    Reach (ss.flatMap (cutSpan r)) p ↔ Reach ss p ∧ ¬ (r.start ≤ p ∧ p < r.stop) := by
  induction ss with
  | nil => exact ⟨fun h => absurd h reach_nil, fun h => absurd h.1 reach_nil⟩
  | cons a ss ih =>
    rw [List.flatMap_cons, reach_append, reach_cutSpan, ih, reach_cons, or_and_right]

theorem Normal.remove (hs : s.Normal) (r : Span) : (s.remove r).Normal := by
  unfold SpanSet.remove
  split
  · rename_i hr
    exact areRuns_flatMap_cutSpan hs (proper_iff.mp hr)
  · exact hs

theorem contains_remove (hs : s.Normal) :
    (s.remove r).contains p = true ↔ s.contains p = true ∧ ¬ r.Holds p := by
  rw [contains_iff (hs.remove r), contains_iff hs]
  unfold SpanSet.remove
  split
  · rename_i hr
    rw [reach_flatMap_cutSpan, holds_iff hr]
  · rename_i hr
    exact (and_iff_left (not_holds hr)).symm

/-! ### Sets with sets -/

theorem normal_foldl_insert (hs : s.Normal) (rs : List Span) :
    (rs.foldl SpanSet.insert s).Normal := by
  induction rs generalizing s with
  | nil => exact hs
  | cons r rs ih => exact ih (hs.insert r)

theorem contains_foldl_insert (hs : s.Normal) (rs : List Span) :
    (rs.foldl SpanSet.insert s).contains p = true ↔ s.contains p = true ∨ ∃ r ∈ rs, r.Holds p := by
  induction rs generalizing s with
  | nil => simp
  | cons r rs ih =>
    rw [List.foldl_cons, ih (hs.insert r), contains_insert hs, or_comm (a := r.Holds p), or_assoc]
    simp only [List.mem_cons, exists_eq_or_imp]

theorem normal_foldl_remove (hs : s.Normal) (rs : List Span) :
    (rs.foldl SpanSet.remove s).Normal := by
  induction rs generalizing s with
  | nil => exact hs
  | cons r rs ih => exact ih (hs.remove r)

theorem contains_foldl_remove (hs : s.Normal) (rs : List Span) :
    (rs.foldl SpanSet.remove s).contains p = true ↔ s.contains p = true ∧
      ¬ ∃ r ∈ rs, r.Holds p := by
  induction rs generalizing s with
  | nil => simp
  | cons r rs ih =>
    rw [List.foldl_cons, ih (hs.remove r), contains_remove hs, and_assoc, ← not_or]
    simp only [List.mem_cons, exists_eq_or_imp]

/-- The runs of a set hold its positions. -/
theorem exists_holds_iff (ht : t.Normal) : (∃ r ∈ t.spans, r.Holds p) ↔ t.contains p = true := by
  rw [contains_iff ht, Reach]
  refine exists_congr fun r => and_congr_right fun hr => ?_
  exact holds_iff (proper_iff.mpr (ht.proper r hr))

theorem Normal.union (hs : s.Normal) (t : SpanSet) : (s.union t).Normal := normal_foldl_insert hs _

theorem contains_union (hs : s.Normal) (ht : t.Normal) :
    (s.union t).contains p = true ↔ s.contains p = true ∨ t.contains p = true := by
  rw [SpanSet.union, contains_foldl_insert hs, exists_holds_iff ht]

theorem Normal.subtract (hs : s.Normal) (t : SpanSet) : (s.subtract t).Normal :=
  normal_foldl_remove hs _

theorem contains_subtract (hs : s.Normal) (ht : t.Normal) :
    (s.subtract t).contains p = true ↔ s.contains p = true ∧ ¬ t.contains p = true := by
  rw [SpanSet.subtract, contains_foldl_remove hs, exists_holds_iff ht]

/-! ### Sets with the same positions -/

/-- Behind its first run a set has no positions up to the end of the run. -/
theorem AreRuns.lt_of_reach {a : Span} (h : AreRuns (a :: ss)) (hp : Reach ss p) : a.stop < p := by
  obtain ⟨-, hgap, -⟩ := areRuns_cons.mp h
  obtain ⟨b, hb, hle, -⟩ := hp
  have hlt := hgap b hb
  simp only [Pos.lt_def, Pos.le_def] at hlt hle ⊢
  omega

/-- Of two sets with the same positions, the first run of one reaches no further than that of the
other. -/
theorem AreRuns.head_within {a b : Span} (hss : AreRuns (a :: ss)) (hts : AreRuns (b :: ts))
    (h : ∀ p, Reach (a :: ss) p ↔ Reach (b :: ts) p) : b.start ≤ a.start ∧ a.stop ≤ b.stop := by
  obtain ⟨⟨-, ha⟩, -, -⟩ := areRuns_cons.mp hss
  obtain ⟨⟨-, hb⟩, -, -⟩ := areRuns_cons.mp hts
  have hstart : b.start ≤ a.start := by
    rcases reach_cons.mp ((h a.start).mp (reach_cons.mpr (.inl ⟨Nat.le_refl _, ha⟩))) with hin | hin
    · exact hin.1
    · have hlt := hts.lt_of_reach hin
      simp only [Pos.lt_def, Pos.le_def] at hlt hb ⊢
      omega
  refine ⟨hstart, Nat.le_of_not_lt fun hlt => ?_⟩
  -- the end of the run of `b` would be a position of `a`, and is none of its own set
  have hin : Reach (a :: ss) b.stop := by
    refine reach_cons.mpr (.inl ⟨?_, hlt⟩)
    rcases reach_cons.mp ((h b.start).mpr (reach_cons.mpr (.inl ⟨Nat.le_refl _, hb⟩)))
      with hin | hin
    · simp only [Pos.lt_def, Pos.le_def] at hin hb ⊢
      omega
    · have hlt' := hss.lt_of_reach hin
      simp only [Pos.lt_def, Pos.le_def] at hlt' hb ⊢
      omega
  rcases reach_cons.mp ((h b.stop).mp hin) with hin | hin
  · exact absurd hin.2 (Nat.lt_irrefl _)
  · exact absurd (hts.lt_of_reach hin) (Nat.lt_irrefl _)

theorem AreRuns.eq_of_reach (hss : AreRuns ss) (hts : AreRuns ts)
    (h : ∀ p, Reach ss p ↔ Reach ts p) : ss = ts := by
  induction ss generalizing ts with
  | nil =>
    cases ts with
    | nil => rfl
    | cons b ts =>
      obtain ⟨⟨-, hb⟩, -, -⟩ := areRuns_cons.mp hts
      exact absurd ((h b.start).mpr (reach_cons.mpr (.inl ⟨Nat.le_refl _, hb⟩))) reach_nil
  | cons a ss ih =>
    cases ts with
    | nil =>
      obtain ⟨⟨-, ha⟩, -, -⟩ := areRuns_cons.mp hss
      exact absurd ((h a.start).mp (reach_cons.mpr (.inl ⟨Nat.le_refl _, ha⟩))) reach_nil
    | cons b ts =>
      obtain ⟨hab, hab'⟩ := hss.head_within hts h
      obtain ⟨hba, hba'⟩ := hts.head_within hss fun p => (h p).symm
      obtain rfl : a = b := by
        obtain ⟨⟨a₁⟩, ⟨a₂⟩⟩ := a
        obtain ⟨⟨b₁⟩, ⟨b₂⟩⟩ := b
        simp only [Pos.le_def] at hab hab' hba hba'
        congr <;> omega
      refine congrArg _ (ih (areRuns_cons.mp hss).2.2 (areRuns_cons.mp hts).2.2 fun p => ?_)
      -- the rest of either set is what lies behind the run they share
      have hrest {us us' : List Span} (hus : AreRuns (a :: us))
          (h : Reach (a :: us) p ↔ Reach (a :: us') p) (hp : Reach us p) : Reach us' p := by
        rcases reach_cons.mp (h.mp (reach_cons.mpr (.inr hp))) with hin | hin
        · exact absurd hin.2 (Nat.not_lt_of_lt (hus.lt_of_reach hp))
        · exact hin
      exact ⟨hrest hss (h p), hrest hts (h p).symm⟩

/-- **A normal set is determined by its positions.** -/
theorem Normal.ext (hs : s.Normal) (ht : t.Normal)
    (h : ∀ p, s.contains p = true ↔ t.contains p = true) :
    s = t := by
  obtain ⟨ss⟩ := s
  obtain ⟨ts⟩ := t
  refine congrArg SpanSet.mk (AreRuns.eq_of_reach hs ht fun p => ?_)
  rw [← contains_iff hs, ← contains_iff ht]
  exact h p

end SpanSet

end Graft
