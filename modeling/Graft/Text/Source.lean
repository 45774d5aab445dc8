import Graft.Text.Position

/-! # Source texts

A text is kept as its characters; positions count its UTF-8 bytes.  `dropBytes?` and `takeBytes?`
cut a text at byte offsets and refuse a cut inside a character or past the end, so that
`Source.slice?` answers exactly for the spans that hold whole characters.

A `LineTable` records where lines begin and turns positions into lines and columns, both counted
from zero.
-/

namespace Graft

/-- The number of UTF-8 bytes of a text. -/
def byteLength : List Char → Nat
  | [] => 0
  | c :: cs => c.utf8Size + byteLength cs

/-- What is left of a text after its first `n` bytes, if they are whole characters. -/
def dropBytes? : Nat → List Char → Option (List Char)
  | 0, cs => some cs
  | _ + 1, [] => none
  | n + 1, c :: cs => if c.utf8Size ≤ n + 1 then dropBytes? (n + 1 - c.utf8Size) cs else none

/-- The first `n` bytes of a text, if they are whole characters. -/
def takeBytes? : Nat → List Char → Option (List Char)
  | 0, _ => some []
  | _ + 1, [] => none
  | n + 1, c :: cs =>
    if c.utf8Size ≤ n + 1 then (takeBytes? (n + 1 - c.utf8Size) cs).map (c :: ·) else none

/-- The characters between two byte offsets, if both fall between characters. -/
def sliceBytes? (cs : List Char) (start stop : Nat) : Option (List Char) :=
  if start ≤ stop then (dropBytes? start cs).bind (takeBytes? (stop - start)) else none

/-- The byte offsets at which the lines of a text begin, in order. -/
structure LineTable where
  starts : List Nat
  deriving DecidableEq, Inhabited

namespace LineTable

/-- The offsets just behind each newline of a text that begins at `offset`. -/
def startsBehindNewlines (offset : Nat) : List Char → List Nat
  | [] => []
  | c :: cs =>
    let next := offset + c.utf8Size
    if c = '\n' then next :: startsBehindNewlines next cs else startsBehindNewlines next cs

/-- The line table of a text: one line more than it has newlines. -/
def ofText (cs : List Char) : LineTable := ⟨0 :: startsBehindNewlines 0 cs⟩

/-- The number of lines. -/
def size (t : LineTable) : Nat := t.starts.length

/-- Where the given line begins. -/
def start? (t : LineTable) (line : Nat) : Option Nat := t.starts[line]?

/-- Line and column of a valid position: the last line that begins at or before it. -/
def lineCol? (t : LineTable) (p : Pos) : Option (Nat × Nat) := do
  let offset ← p.offset?
  let before := t.starts.takeWhile (· ≤ offset)
  let start ← before.getLast?
  return (before.length - 1, offset - start)

/-- Line of a valid position. -/
def line? (t : LineTable) (p : Pos) : Option Nat := (t.lineCol? p).map (·.1)

end LineTable

/-- A text together with its line table. -/
structure Source where
  text : List Char
  lines : LineTable

namespace Source

/-- The source with the given text. -/
def ofText (cs : List Char) : Source := ⟨cs, LineTable.ofText cs⟩

/-- The text a span covers; nothing when an end is nowhere, past the text, inside a character or
before the other. -/
def slice? (src : Source) (s : Span) : Option (List Char) := do
  let start ← s.start.offset?
  let stop ← s.stop.offset?
  sliceBytes? src.text start stop

end Source

end Graft
