import Graft.Text.Position

/-! # Sets of positions

A set of positions is kept as the list of its maximal runs: the spans are valid and not empty, stand
in order and never touch.  Inserting a span melts it with every span it meets or touches; removing
one may cut a span in two.  Spans that are empty or not valid hold no position and change nothing.
-/

namespace Graft

/-- A set of positions, as its maximal runs in order. -/
structure SpanSet where
  spans : List Span
  deriving DecidableEq, Inhabited

namespace SpanSet

/-- The set without positions. -/
def empty : SpanSet := ⟨[]⟩

/-- Whether the set has no positions. -/
def isEmpty (s : SpanSet) : Bool := s.spans.isEmpty

/-- The number of runs. -/
def size (s : SpanSet) : Nat := s.spans.length

/-- Puts a span among spans, melting it with those it meets or touches. -/
def insertSpan (r : Span) : List Span → List Span
  | [] => [r]
  | s :: ss =>
    if s.stop < r.start then s :: insertSpan r ss
    else if r.stop < s.start then r :: s :: ss
    else insertSpan ⟨min r.start s.start, max r.stop s.stop⟩ ss

/-- What is left of a span when the positions of another are taken out. -/
def cutSpan (r s : Span) : List Span :=
  if s.stop ≤ r.start ∨ r.stop ≤ s.start then [s]
  else
    (if s.start < r.start then [⟨s.start, r.start⟩] else [])
      ++ (if r.stop < s.stop then [⟨r.stop, s.stop⟩] else [])

/-- The set with the positions of a span added. -/
def insert (s : SpanSet) (r : Span) : SpanSet :=
  if r.isValid && !r.isEmpty then ⟨insertSpan r s.spans⟩ else s

/-- The set with the positions of a span taken out. -/
def remove (s : SpanSet) (r : Span) : SpanSet :=
  if r.isValid && !r.isEmpty then ⟨s.spans.flatMap (cutSpan r)⟩ else s

/-- The set with all positions of another added. -/
def union (s t : SpanSet) : SpanSet := t.spans.foldl insert s

/-- The set with all positions of another taken out. -/
def subtract (s t : SpanSet) : SpanSet := t.spans.foldl remove s

/-- The set of the positions of some spans. -/
def ofSpans (rs : List Span) : SpanSet := rs.foldl insert empty

/-- Whether a span shares a position with the set.  An empty span meets a run that stretches across
its place. -/
def intersects (s : SpanSet) (r : Span) : Bool :=
  r.isValid && s.spans.any fun t =>
    if r.start = r.stop then decide (t.start < r.start ∧ r.start < t.stop)
    else decide (t.start < r.stop ∧ r.start < t.stop)

/-- Whether the set has a position. -/
def contains (s : SpanSet) (p : Pos) : Bool :=
  p.isValid && s.spans.any fun t => decide (t.start ≤ p ∧ p < t.stop)

/-- The end of the last run that ends at or before a position. -/
def lastEndBefore? (s : SpanSet) (p : Pos) : Option Pos :=
  if p.isValid then (s.spans.reverse.find? fun t => decide (t.stop ≤ p)).map (·.stop) else none

/-- The text form of a set in messages. -/
def display (s : SpanSet) : String := "[" ++ ", ".intercalate (s.spans.map Span.display) ++ "]"

end SpanSet

end Graft
