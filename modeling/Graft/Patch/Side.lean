import Graft.Grammar.File

/-! # The two sides of a patch

The body of a patch holds two texts.  Lines that begin with a minus belong to the pattern only,
lines that begin with a plus to the replacement only, and all others to both; a line that begins
with a hash is a remark and reads as a blank line.  Each side is written out as a text of its own in
which the lines of the other side are left blank, so a line number means the same line on both
sides, and `Side.toPatch` finds the place of the patch file that a place of a side came from.

Changed lines without a context line between them form a **hunk**.
-/

namespace Graft

/-- A line of a patch file. -/
structure PatchLine where
  /-- The byte offset of the line in the patch file. -/
  offset : Nat
  /-- The line without its end. -/
  text : List Char

namespace PatchLine

/-- A text in lines, with their ends. -/
def rawLines : List Char → List (List Char)
  | [] => []
  | c :: cs =>
    if c = '\n' then [c] :: rawLines cs
    else
      match rawLines cs with
      | [] => [[c]]
      | l :: ls => (c :: l) :: ls

/-- A line without the line feeds and carriage returns at its end. -/
def withoutEnd (raw : List Char) : List Char :=
  (raw.reverse.dropWhile fun c => c == '\n' || c == '\r').reverse

/-- Lines with their offsets, the first of which is given. -/
def place (offset : Nat) : List (List Char) → List PatchLine
  | [] => []
  | raw :: raws => ⟨offset, withoutEnd raw⟩ :: place (offset + byteLength raw) raws

/-- The lines of a patch file. -/
def ofText (text : List Char) : List PatchLine := place 0 (rawLines text)

/-- The byte offset behind the line. -/
def stop (l : PatchLine) : Nat := l.offset + byteLength l.text

/-- The range of the line. -/
def span (l : PatchLine) : Span := ⟨.atOffset l.offset, .atOffset l.stop⟩

end PatchLine

/-- Which side a line of the body belongs to. -/
inductive Origin where
  | context
  | removed (hunk : Nat)
  | added (hunk : Nat)
  deriving DecidableEq

/-- A line of the body of a patch. -/
structure BodyLine where
  origin : Origin
  content : List Char
  /-- The byte offset of the content in the patch file. -/
  offset : Nat

namespace BodyLine

/-- The lines of a body; `hunk` is the number of the current hunk, and `isOpen` tells whether it has
lines yet. -/
def ofLines (hunk : Nat) (isOpen : Bool) : List PatchLine → List BodyLine
  | [] => []
  | l :: ls =>
    match l.text with
    | '-' :: cs => ⟨.removed hunk, cs, l.offset + 1⟩ :: ofLines hunk true ls
    | '+' :: cs => ⟨.added hunk, cs, l.offset + 1⟩ :: ofLines hunk true ls
    | cs =>
      let (content, skip) :=
        match cs with
        | ' ' :: rest => (rest, 1)
        | '#' :: _ => ([], 0)
        | rest => (rest, 0)
      ⟨.context, content, l.offset + skip⟩ :: ofLines (if isOpen then hunk + 1 else hunk) false ls

/-- Whether the line stands in the pattern. -/
def isInMinus (l : BodyLine) : Bool :=
  match l.origin with
  | .added _ => false
  | _ => true

/-- Whether the line stands in the replacement. -/
def isInPlus (l : BodyLine) : Bool :=
  match l.origin with
  | .removed _ => false
  | _ => true

end BodyLine

/-- The text of a side: its lines, and blank ones for those of the other side. -/
def sideText (isIn : BodyLine → Bool) (ls : List BodyLine) : List Char :=
  ls.flatMap fun l => (if isIn l then l.content else []) ++ ['\n']

/-- One side of a patch. -/
structure Side where
  text : List Char
  lines : LineTable
  fragment : Fragment
  /-- Where each line comes from. -/
  origins : List Origin
  /-- The byte offset of each line in the patch file. -/
  offsets : List Nat

namespace Side

/-- Where the line of a position comes from. -/
def origin? (s : Side) (p : Pos) : Option Origin := (s.lines.line? p).bind fun l => s.origins[l]?

/-- The place of the patch file that a position came from, given where its lines begin. -/
def placeInPatch (lines : LineTable) (offsets : List Nat) (p : Pos) : Pos :=
  match lines.lineCol? p with
  | none => .none
  | some (line, col) =>
    match offsets[line]? with
    | some offset => .atOffset (offset + col)
    | none => (offsets.getLast?.map Pos.atOffset).getD .none

/-- The place of the patch file that a position came from. -/
def toPatch (s : Side) (p : Pos) : Pos := placeInPatch s.lines s.offsets p

/-- The position at a line and column, if the line is that long. -/
def posAt? (s : Side) (line col : Nat) : Option Pos := do
  let start ← s.lines.start? line
  let stop := (s.lines.start? (line + 1)).getD (byteLength s.text + 1)
  if start + col < stop then some (.atOffset (start + col)) else none

/-- Reads a side of a body. -/
def read (isIn : BodyLine → Bool) (ls : List BodyLine) : Except (Pos × Cause) Side :=
  let text := sideText isIn ls
  let lines := LineTable.ofText text
  let offsets := ls.map (·.offset)
  match parseFragment .pattern text with
  | .ok fragment => .ok ⟨text, lines, fragment, ls.map (·.origin), offsets⟩
  | .error e => .error (placeInPatch lines offsets e.pos, e.cause)

end Side

end Graft
