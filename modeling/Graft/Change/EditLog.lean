import Graft.Change.SpanSet

/-! # The log of changes

Each replacement marks its whole site as changed, and then the pieces it took over from the match as
kept.  The marks of a replacement stay pending until it is committed, which counts as changed what
is marked changed and not kept; so what one replacement keeps never hides what another one changed.
A replacement that fails is discarded, and its marks count nowhere.
-/

namespace Graft

/-- Which ranges of the source changed, and which were kept. -/
structure EditLog where
  /-- Pending marks of change. -/
  marked : SpanSet
  /-- Pending marks of what is kept. -/
  spared : SpanSet
  /-- The changed ranges of all committed replacements. -/
  changed : SpanSet
  /-- The ranges that committed replacements kept. -/
  kept : SpanSet
  deriving DecidableEq, Inhabited

namespace EditLog

/-- The log before anything happened. -/
def empty : EditLog := ⟨.empty, .empty, .empty, .empty⟩

/-- Marks a span as changed. -/
def mark (log : EditLog) (s : Span) : EditLog := { log with marked := log.marked.insert s }

/-- Marks a span as kept. -/
def spare (log : EditLog) (s : Span) : EditLog := { log with spared := log.spared.insert s }

/-- Counts the pending marks. -/
def commit (log : EditLog) : EditLog where
  marked := .empty
  spared := .empty
  changed := log.changed.union (log.marked.subtract log.spared)
  kept := log.kept.union log.spared

/-- Forgets the pending marks. -/
def discard (log : EditLog) : EditLog := { log with marked := .empty, spared := .empty }

/-- Marks several spans as changed. -/
def markAll (log : EditLog) (ss : List Span) : EditLog := ss.foldl mark log

end EditLog

end Graft
