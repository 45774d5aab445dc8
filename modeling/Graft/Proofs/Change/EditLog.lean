import Graft.Change.EditLog
import Graft.Proofs.Change.SpanSet

/-! # What a log of changes comes to

A run of calls on a log is read a second time as **batches**: the marks between two commits or
discards belong together, and a batch counts if a commit ends it (`Batches`).  The log holds, as
sets of positions, what the batches say (`EditLog.Tracks`), and every call keeps it that way
(`EditLog.Tracks.call`).  So a position has changed if a committed batch marks it as changed and
spares it nowhere, whatever other batches spare.

Sets are kept in one form only, so the order of the marks in a batch leaves no trace in the log
(`EditLog.run_perm`).
-/

namespace Graft

/-- A mark of a replacement on the source. -/
inductive Mark where
  | changed (s : Span)
  | kept (s : Span)

/-- A call on a log. -/
inductive LogCall where
  | mark (m : Mark)
  | commit
  | discard

namespace Mark

/-- Whether some of the marks say that a position changed. -/
def Change (ms : List Mark) (p : Pos) : Prop := ∃ s, changed s ∈ ms ∧ s.Holds p

/-- Whether some of the marks say that a position is kept. -/
def Keep (ms : List Mark) (p : Pos) : Prop := ∃ s, kept s ∈ ms ∧ s.Holds p

variable {ms : List Mark} {s : Span} {p : Pos}

theorem change_append_changed : Change (ms ++ [changed s]) p ↔ s.Holds p ∨ Change ms p := by
  simp [Change, or_and_right, exists_or, or_comm]

theorem keep_append_changed : Keep (ms ++ [changed s]) p ↔ Keep ms p := by
  simp [Keep]

theorem change_append_kept : Change (ms ++ [kept s]) p ↔ Change ms p := by
  simp [Change]

theorem keep_append_kept : Keep (ms ++ [kept s]) p ↔ s.Holds p ∨ Keep ms p := by
  simp [Keep, or_and_right, exists_or, or_comm]

end Mark

/-- The marks of a run in batches. -/
structure Batches where
  /-- The marks since the last commit or discard. -/
  pending : List Mark
  /-- The batches that a commit ended, oldest first. -/
  committed : List (List Mark)

namespace Batches

/-- The batches after one call more. -/
def call (b : Batches) : LogCall → Batches
  | .mark m => { b with pending := b.pending ++ [m] }
  | .commit => ⟨[], b.committed ++ [b.pending]⟩
  | .discard => ⟨[], b.committed⟩

/-- The batches of a run. -/
def ofRun (calls : List LogCall) : Batches := calls.foldl call ⟨[], []⟩

end Batches

namespace EditLog

/-- The log with one mark more. -/
def note (log : EditLog) : Mark → EditLog
  | .changed s => log.mark s
  | .kept s => log.spare s

/-- The log after a call. -/
def call (log : EditLog) : LogCall → EditLog
  | .mark m => log.note m
  | .commit => log.commit
  | .discard => log.discard

/-- The log after a run of calls. -/
def run (log : EditLog) (calls : List LogCall) : EditLog := calls.foldl call log

/-- Whether all sets of a log are normal. -/
structure Normal (log : EditLog) : Prop where
  marked : log.marked.Normal
  spared : log.spared.Normal
  changed : log.changed.Normal
  kept : log.kept.Normal

/-- Whether a log holds what some batches say. -/
structure Tracks (log : EditLog) (b : Batches) : Prop where
  normal : log.Normal
  marked : ∀ p, log.marked.contains p = true ↔ Mark.Change b.pending p
  spared : ∀ p, log.spared.contains p = true ↔ Mark.Keep b.pending p
  changed : ∀ p, log.changed.contains p = true ↔ ∃ ms ∈ b.committed, Mark.Change ms p ∧
    ¬ Mark.Keep ms p
  kept : ∀ p, log.kept.contains p = true ↔ ∃ ms ∈ b.committed, Mark.Keep ms p

variable {log : EditLog} {b : Batches}

theorem normal_empty : Normal empty :=
  ⟨SpanSet.normal_empty, SpanSet.normal_empty, SpanSet.normal_empty, SpanSet.normal_empty⟩

theorem Normal.note (h : log.Normal) (m : Mark) : (log.note m).Normal := by
  cases m with
  | changed s => exact ⟨h.marked.insert s, h.spared, h.changed, h.kept⟩
  | kept s => exact ⟨h.marked, h.spared.insert s, h.changed, h.kept⟩

theorem Normal.commit (h : log.Normal) : log.commit.Normal :=
  ⟨SpanSet.normal_empty, SpanSet.normal_empty, h.changed.union _, h.kept.union _⟩

theorem Normal.discard (h : log.Normal) : log.discard.Normal :=
  ⟨SpanSet.normal_empty, SpanSet.normal_empty, h.changed, h.kept⟩

theorem Normal.call (h : log.Normal) (c : LogCall) : (log.call c).Normal := by
  cases c with
  | mark m => exact h.note m
  | commit => exact h.commit
  | discard => exact h.discard

theorem Normal.run (h : log.Normal) (calls : List LogCall) : (log.run calls).Normal := by
  induction calls generalizing log with
  | nil => exact h
  | cons c calls ih => exact ih (h.call c)

/-! ### Commits -/

theorem contains_changed_commit (h : log.Normal) {p : Pos} :
    log.commit.changed.contains p = true ↔
      log.changed.contains p = true ∨
      (log.marked.contains p = true ∧ ¬ log.spared.contains p = true) := by
  rw [EditLog.commit, SpanSet.contains_union h.changed (h.marked.subtract _),
    SpanSet.contains_subtract h.marked h.spared]

theorem foldl_spare (log : EditLog) (ss : List Span) :
    ss.foldl spare log = { log with spared := ss.foldl SpanSet.insert log.spared } := by
  induction ss generalizing log with
  | nil => rfl
  | cons s ss ih => exact ih (log.spare s)

/-- A replacement that spares parts of its site changes none of them, and nothing outside of the
site. -/
theorem Normal.contains_changed_replace (h : log.Normal) {site : Span} {ss : List Span} {p : Pos}
    (hp : ((ss.foldl spare (log.mark site)).commit).changed.contains p = true) :
    log.commit.changed.contains p = true ∨ (site.Holds p ∧ ∀ s ∈ ss, ¬ s.Holds p) := by
  have hnormal : (ss.foldl spare (log.mark site)).Normal := by
    rw [foldl_spare]
    exact ⟨h.marked.insert site, SpanSet.normal_foldl_insert h.spared ss, h.changed, h.kept⟩
  rw [contains_changed_commit hnormal, foldl_spare] at hp
  rw [contains_changed_commit h]
  rcases hp with hchanged | ⟨hmarked, hspared⟩
  · exact .inl (.inl hchanged)
  · obtain ⟨hbefore, hpieces⟩ :=
      not_or.mp (mt (SpanSet.contains_foldl_insert h.spared ss).mpr hspared)
    rcases (SpanSet.contains_insert h.marked).mp hmarked with hsite | hmarked
    · exact .inr ⟨hsite, fun s hs hholds => hpieces ⟨s, hs, hholds⟩⟩
    · exact .inl (.inr ⟨hmarked, hbefore⟩)

/-! ### Batches -/

theorem tracks_empty : Tracks empty ⟨[], []⟩ := by
  refine ⟨normal_empty, fun p => ?_, fun p => ?_, fun p => ?_, fun p => ?_⟩
  all_goals simp [empty, SpanSet.contains_empty, Mark.Change, Mark.Keep]

theorem Tracks.note (h : log.Tracks b) (m : Mark) : (log.note m).Tracks (b.call (.mark m)) := by
  cases m with
  | changed s =>
    refine ⟨h.normal.note _, fun p => ?_, fun p => ?_, h.changed, h.kept⟩
    · rw [EditLog.note, EditLog.mark, SpanSet.contains_insert h.normal.marked,
        h.marked, Batches.call, Mark.change_append_changed]
    · rw [EditLog.note, EditLog.mark, h.spared, Batches.call, Mark.keep_append_changed]
  | kept s =>
    refine ⟨h.normal.note _, fun p => ?_, fun p => ?_, h.changed, h.kept⟩
    · rw [EditLog.note, EditLog.spare, h.marked, Batches.call, Mark.change_append_kept]
    · rw [EditLog.note, EditLog.spare, SpanSet.contains_insert h.normal.spared,
        h.spared, Batches.call, Mark.keep_append_kept]

/-- No marks are pending behind a commit or a discard. -/
theorem contains_pending {p : Pos} :
    (SpanSet.empty.contains p = true ↔ Mark.Change [] p) ∧
      (SpanSet.empty.contains p = true ↔ Mark.Keep [] p) := by
  simp [SpanSet.contains_empty, Mark.Change, Mark.Keep]

theorem Tracks.commit (h : log.Tracks b) : log.commit.Tracks (b.call .commit) := by
  have hn := h.normal
  refine ⟨hn.commit, fun _ => contains_pending.1, fun _ => contains_pending.2,
    fun p => ?_, fun p => ?_⟩
  · rw [contains_changed_commit hn, h.changed, h.marked, h.spared]
    simp [Batches.call, or_and_right, exists_or]
  · rw [EditLog.commit, SpanSet.contains_union hn.kept hn.spared, h.kept, h.spared]
    simp [Batches.call, or_and_right, exists_or]

theorem Tracks.discard (h : log.Tracks b) : log.discard.Tracks (b.call .discard) :=
  ⟨h.normal.discard, fun _ => contains_pending.1, fun _ => contains_pending.2, h.changed, h.kept⟩

/-- **Every call keeps the log in step with the batches.** -/
theorem Tracks.call (h : log.Tracks b) (c : LogCall) : (log.call c).Tracks (b.call c) := by
  cases c with
  | mark m => exact h.note m
  | commit => exact h.commit
  | discard => exact h.discard

theorem Tracks.run (h : log.Tracks b) (calls : List LogCall) :
    (log.run calls).Tracks (calls.foldl Batches.call b) := by
  induction calls generalizing log b with
  | nil => exact h
  | cons c calls ih => exact ih (h.call c)

/-! ### Order -/

theorem insert_comm {s : SpanSet} (hs : s.Normal) (r r' : Span) :
    (s.insert r).insert r' = (s.insert r').insert r := by
  refine ((hs.insert r).insert r').ext ((hs.insert r').insert r) fun p => ?_
  rw [SpanSet.contains_insert (hs.insert r), SpanSet.contains_insert (hs.insert r'),
    SpanSet.contains_insert hs, SpanSet.contains_insert hs]
  exact or_left_comm

/-- Two marks may change places. -/
theorem note_comm (h : log.Normal) (m m' : Mark) : (log.note m).note m' = (log.note m').note m := by
  cases m with
  | changed s =>
    cases m' with
    | changed s' =>
      simp only [note, mark, insert_comm h.marked s s']
    | kept s' => rfl
  | kept s =>
    cases m' with
    | changed s' => rfl
    | kept s' =>
      simp only [note, spare, insert_comm h.spared s s']

/-- **The order of marks leaves no trace in a log.** -/
theorem run_perm (h : log.Normal) {ms ms' : List Mark} (hperm : ms.Perm ms') :
    log.run (ms.map .mark) = log.run (ms'.map .mark) := by
  induction hperm generalizing log with
  | nil => rfl
  | cons m _ ih => exact ih (h.note m)
  | swap m m' ms =>
    change ((log.note m').note m).run _ = ((log.note m).note m').run _
    rw [note_comm h]
  | trans _ _ ih₁ ih₂ => exact (ih₁ h).trans (ih₂ h)

theorem run_append (calls calls' : List LogCall) :
    log.run (calls ++ calls') = (log.run calls).run calls' := List.foldl_append

/-- What a run of calls on a fresh log comes to: a position has changed exactly if a committed batch
marks it as changed and does not keep it, and is kept exactly if a committed batch keeps it.  Marks
in another order leave the same sets behind. -/
theorem run_batches (calls : List LogCall) :
    (∀ p, (empty.run calls).changed.contains p = true ↔
      ∃ ms ∈ (Batches.ofRun calls).committed, Mark.Change ms p ∧ ¬ Mark.Keep ms p) ∧
    (∀ p, (empty.run calls).kept.contains p = true ↔
      ∃ ms ∈ (Batches.ofRun calls).committed, Mark.Keep ms p) ∧
    ∀ (front back : List LogCall) (ms ms' : List Mark), ms.Perm ms' →
      calls = front ++ ms.map .mark ++ back →
      (empty.run (front ++ ms'.map .mark ++ back)).changed = (empty.run calls).changed ∧
      (empty.run (front ++ ms'.map .mark ++ back)).kept = (empty.run calls).kept := by
  have htracks : (empty.run calls).Tracks (Batches.ofRun calls) := tracks_empty.run calls
  refine ⟨htracks.changed, htracks.kept, ?_⟩
  rintro front back ms ms' hperm rfl
  have hsame : empty.run (front ++ ms'.map .mark ++ back) =
      empty.run (front ++ ms.map .mark ++ back) := by
    simp only [run_append, run_perm (normal_empty.run front) hperm]
  rw [hsame]
  exact ⟨rfl, rfl⟩

/-- A batch that keeps what an earlier one changed, and keeps a part of its own change: the earlier
change stays, and the two marks of the batch may change places. -/
theorem run_batches_later_kept :
    let span (i j : Nat) : Span := ⟨⟨i⟩, ⟨j⟩⟩
    let front : List LogCall := [.mark (.changed (span 1 4)), .commit]
    let ms : List Mark := [.changed (span 6 9), .kept (span 2 8)]
    let calls : List LogCall :=
      front ++ ms.map .mark ++ [.commit, .mark (.changed (span 20 30)), .discard]
    (∃ ms ∈ (Batches.ofRun calls).committed, Mark.Change ms ⟨2⟩ ∧ ¬ Mark.Keep ms ⟨2⟩) ∧
      (empty.run (front ++ ms.reverse.map .mark ++
        [.commit, .mark (.changed (span 20 30)), .discard])).changed.spans = [span 1 4,
        span 8 9] := by
  intro span front ms calls
  obtain ⟨hchanged, -, hperm⟩ := run_batches calls
  refine ⟨(hchanged ⟨2⟩).mp (by decide), ?_⟩
  rw [(hperm front _ ms ms.reverse ms.reverse_perm.symm rfl).1]
  decide

end EditLog

end Graft
