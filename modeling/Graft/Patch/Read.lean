import Graft.Match.Pattern
import Graft.Patch.Error
import Graft.Patch.Side
import Graft.Text.Blank
import Graft.Text.Letter

/-! # Reading patch files

A patch file holds patches.  A patch begins with a header: a line `@@`, or `@ name @` to give the
patch a name, declarations of metavariables, and a closing line `@@`.  Its body reaches to the next
line that begins with an at sign.  Blank lines and lines that begin with a hash count for nothing
outside of bodies.

A patch with a problem is left out; all problems are reported in the order in which they stand.
-/

namespace Graft

/-- A declared metavariable. -/
structure Metavar where
  name : String
  kind : MetaKind
  /-- Where the name is declared in the patch file. -/
  pos : Pos

/-- A patch as it was read. -/
structure Patch where
  name : Option String
  /-- The range of the header in the patch file. -/
  header : Span
  metavars : List Metavar
  /-- The pattern. -/
  minus : Side
  /-- The replacement. -/
  plus : Side

/-- The declaration of a metavariable. -/
def Patch.metavar? (p : Patch) (name : String) : Option Metavar :=
  p.metavars.find? (·.name == name)

/-- What reading came to: the sound patches, and all problems. -/
structure PatchFile where
  patches : List Patch
  errors : List PatchError

namespace PatchFile

/-! ### Lines -/

/-- Whether a line outside of bodies counts for nothing. -/
def isSkipped (l : PatchLine) : Bool :=
  match trim l.text with
  | [] => true
  | c :: _ => c == '#'

/-- Whether a line begins with an at sign. -/
def isHeader (l : PatchLine) : Bool := l.text.head? == some '@'

/-- Whether a line closes a header. -/
def isClosing (l : PatchLine) : Bool := trim l.text == ['@', '@']

/-- A fault of a line. -/
def lineError (l : PatchLine) (fault : PatchFault) : PatchError := ⟨fault, l.span⟩

/-! ### Headers -/

/-- The name that the first line of a header gives to the patch. -/
def headerName (l : PatchLine) : Except PatchFault (Option String) :=
  let fault := PatchFault.badHeader (String.ofList (trim l.text))
  match trim l.text with
  | ['@', '@'] => .ok none
  | '@' :: cs =>
    match cs.reverse with
    | '@' :: inner =>
      let name := trim inner.reverse
      if isName name then .ok (some (String.ofList name)) else .error fault
    | _ => .error fault
  | _ => .error fault

/-- Cuts a text at its commas. -/
def splitCommas : List Char → List (List Char)
  | [] => [[]]
  | c :: cs =>
    match splitCommas cs with
    | [] => [[c]]
    | l :: ls => if c = ',' then [] :: l :: ls else (c :: l) :: ls

/-- A text before and behind its last blank. -/
def splitLastBlank? (cs : List Char) : Option (List Char × List Char) :=
  let behind := (cs.reverse.takeWhile fun c => !isBlank c).reverse
  match cs.reverse.dropWhile fun c => !isBlank c with
  | [] => none
  | _ :: before => some (before.reverse, behind)

/-- The byte offset at which one text first occurs in another. -/
def find? (needle : List Char) : List Char → Option Nat
  | [] => if needle.isEmpty then some 0 else none
  | c :: cs =>
    if needle.isPrefixOf (c :: cs) then some 0 else (find? needle cs).map (· + c.utf8Size)

/-- The metavariables a line declares. -/
def readDecl (l : PatchLine) : Except PatchFault (List Metavar) :=
  match trimStart l.text with
  | 'v' :: 'a' :: 'r' :: c :: cs =>
    if !isBlank c then .error .declWithoutKeyword
    else
      let decl := trim (c :: cs)
      match splitLastBlank? decl with
      | none => .error .declWithoutType
      | some (names, kind) =>
        let kindName := String.ofList (trim kind)
        match MetaKind.ofName? kindName with
        | none => .error (.unknownMetaKind kindName)
        | some kind =>
          (splitCommas names).mapM fun name =>
            let name := trim name
            if isName name then
              .ok ⟨String.ofList name, kind, .atOffset (l.offset + (find? name l.text).getD 0)⟩
            else .error (.declOfNoName (String.ofList decl))
  | _ => .error .declWithoutKeyword

/-- The declarations of a header. -/
structure Decls where
  metavars : List Metavar
  errors : List PatchError

/-- Adds a declared metavariable, unless its name is taken. -/
def Decls.declare (l : PatchLine) (ds : Decls) (m : Metavar) : Decls :=
  if ds.metavars.any (·.name == m.name) then
    { ds with errors := ds.errors ++ [lineError l (.duplicateMetavar m.name)] }
  else { ds with metavars := ds.metavars ++ [m] }

/-- Adds what a line of a header declares. -/
def Decls.readLine (ds : Decls) (l : PatchLine) : Decls :=
  if isSkipped l then ds
  else
    match readDecl l with
    | .ok ms => ms.foldl (Decls.declare l) ds
    | .error fault => { ds with errors := ds.errors ++ [lineError l fault] }

/-! ### Patches -/

/-- The error of a side that is no code. -/
def sideErrors : Except (Pos × Cause) Side → List PatchError
  | .ok _ => []
  | .error (p, cause) => [.at p (.unreadable cause)]

/-- Reads the patch that begins with the header line `first` and has the given declarations, closing
line and body. -/
def readPatch (first : PatchLine) (decls : List PatchLine) (closing : PatchLine)
    (body : List PatchLine) : PatchFile :=
  let name := headerName first
  let nameErrors :=
    match name with
    | .ok _ => []
    | .error fault => [lineError first fault]
  let ds := decls.foldl Decls.readLine ⟨[], []⟩
  let lines := BodyLine.ofLines 0 false body
  let minus := Side.read BodyLine.isInMinus lines
  let plus := Side.read BodyLine.isInPlus lines
  let errors := nameErrors ++ ds.errors ++ sideErrors minus ++ sideErrors plus
  match name, ds.errors, minus, plus with
  | .ok name, [], .ok minus, .ok plus =>
    ⟨[⟨name, ⟨.atOffset first.offset, .atOffset closing.stop⟩, ds.metavars, minus, plus⟩], errors⟩
  | _, _, _, _ => ⟨[], errors⟩

/-- The problems of a header that is never closed. -/
def unclosedErrors (first : PatchLine) (decls : List PatchLine) : List PatchError :=
  let nameErrors :=
    match headerName first with
    | .ok _ => []
    | .error fault => [lineError first fault]
  let last := decls.getLast?.getD first
  nameErrors ++ (decls.foldl Decls.readLine ⟨[], []⟩).errors
    ++ [⟨.missingBody, ⟨.atOffset first.offset, .atOffset last.stop⟩⟩]

/-- Two readings one after the other. -/
def append (a b : PatchFile) : PatchFile := ⟨a.patches ++ b.patches, a.errors ++ b.errors⟩

theorem length_dropWhile_le {α : Type} (p : α → Bool) (l : List α) :
    (l.dropWhile p).length ≤ l.length :=
  (List.dropWhile_sublist p).length_le

/-- Reads the lines of a patch file. -/
def readLines : List PatchLine → PatchFile
  | [] => ⟨[], []⟩
  | l :: ls =>
    if isSkipped l then readLines ls
    else if !isHeader l then
      append ⟨[], [lineError l .strayLine]⟩ (readLines (ls.dropWhile fun l => !isHeader l))
    else
      let decls := ls.takeWhile fun l => !isClosing l
      match _h : ls.dropWhile fun l => !isClosing l with
      | [] => ⟨[], unclosedErrors l decls⟩
      | closing :: rest =>
        append (readPatch l decls closing (rest.takeWhile fun l => !isHeader l))
          (readLines (rest.dropWhile fun l => !isHeader l))
termination_by ls => ls.length
decreasing_by
  · simp
  · have := length_dropWhile_le (fun l => !isHeader l) ls
    simp; omega
  · have h₁ := length_dropWhile_le (fun l => !isHeader l) rest
    have h₂ := length_dropWhile_le (fun l => !isClosing l) ls
    rw [_h] at h₂
    simp at h₂ ⊢
    omega

/-- Reads a patch file. -/
def read (text : List Char) : PatchFile := readLines (PatchLine.ofText text)

end PatchFile

end Graft
