import Graft.Text.Quoted
import Graft.Tree.Basic

/-! # Captures

What a match found out.  Captures are a list of keyed bindings, newest first: matching only ever
adds to the front, so a failed attempt is undone by going on with the list it started from.  A
look-up finds the newest binding of its key, and finds nothing when that binding is of another sort
than asked for.
-/

namespace Graft

/-- What a binding is filed under. -/
inductive Key where
  /-- A metavariable. -/
  | metavar (name : String)
  /-- The run skipped by the wildcard at this place of the pattern. -/
  | dots (p : Pos)
  /-- The place of the token at this place of the pattern. -/
  | pos (p : Pos)
  /-- The comment above the node at this place of the pattern. -/
  | doc (p : Pos)
  /-- The loop header elided by the wildcard at this place of the pattern. -/
  | loopHeader (p : Pos)
  /-- The field list elided by the wildcard at this place of the pattern. -/
  | fieldList (p : Pos)
  /-- The block, clause or file around a match. -/
  | container
  /-- The elements of the container before the match. -/
  | head
  /-- The elements of the container behind the match. -/
  | tail
  /-- The range a replacement takes over. -/
  | site
  /-- The name under which an import is used, by its path. -/
  | importName (path : String)
  deriving DecidableEq

/-- The text form of a key in messages. -/
def Key.display : Key → String
  | metavar name => "Meta(" ++ Quoted.string name ++ ")"
  | dots p => "Dots(" ++ p.display ++ ")"
  | pos p => "Pos(" ++ p.display ++ ")"
  | doc p => "Attr(" ++ p.display ++ ")"
  | loopHeader p => "Capture(Loop(" ++ p.display ++ "))"
  | fieldList p => "Capture(FieldList(" ++ p.display ++ "))"
  | container => "Capture(Container)"
  | head => "Capture(Head)"
  | tail => "Capture(Tail)"
  | site => "Capture(Site)"
  | importName path => "Import(" ++ Quoted.string path ++ ")"

/-- What a key is bound to. -/
inductive Binding where
  /-- The value of a metavariable. -/
  | metavar (value : Tree) (span : Span)
  /-- A run of list elements. -/
  | run (items : List Tree) (span : Span)
  | pos (p : Pos)
  /-- A value taken over as it is. -/
  | captured (value : Tree) (span : Span)
  | span (s : Span)
  | name (s : String)

/-- The bindings of a match, newest first. -/
structure Captures where
  entries : List (Key × Binding)

namespace Captures

/-- No bindings. -/
def empty : Captures := ⟨[]⟩

/-- One binding more. -/
def bind (c : Captures) (k : Key) (b : Binding) : Captures := ⟨(k, b) :: c.entries⟩

/-- The number of bindings, shadowed ones included. -/
def size (c : Captures) : Nat := c.entries.length

/-- Whether there are no bindings. -/
def isEmpty (c : Captures) : Bool := c.entries.isEmpty

/-- The newest binding of a key. -/
def get? (c : Captures) (k : Key) : Option Binding := (c.entries.find? (·.1 == k)).map (·.2)

/-- The value of a metavariable, and its range. -/
def metavar? (c : Captures) (name : String) : Option (Tree × Span) :=
  match c.get? (.metavar name) with
  | some (.metavar value span) => some (value, span)
  | _ => none

/-- A run of list elements, and its range. -/
def run? (c : Captures) (k : Key) : Option (List Tree × Span) :=
  match c.get? k with
  | some (.run items span) => some (items, span)
  | _ => none

/-- A position. -/
def pos? (c : Captures) (k : Key) : Option Pos :=
  match c.get? k with
  | some (.pos p) => some p
  | _ => none

/-- A value taken over as it is, and its range. -/
def captured? (c : Captures) (k : Key) : Option (Tree × Span) :=
  match c.get? k with
  | some (.captured value span) => some (value, span)
  | _ => none

/-- A range. -/
def span? (c : Captures) (k : Key) : Option Span :=
  match c.get? k with
  | some (.span s) => some s
  | _ => none

/-- The name under which the import of a path is used. -/
def importName? (c : Captures) (path : String) : Option String :=
  match c.get? (.importName path) with
  | some (.name s) => some s
  | _ => none

/-- Entries without those whose key occurs further to the front. -/
def visibleEntries : List (Key × Binding) → List (Key × Binding)
  | [] => []
  | e :: es => e :: (visibleEntries es).filter (·.1 != e.1)

/-- The captures without the bindings that newer ones shadow. -/
def visible (c : Captures) : Captures := ⟨visibleEntries c.entries⟩

/-- The text form of captures in messages: their keys. -/
def display (c : Captures) : String :=
  "[" ++ ", ".intercalate (c.entries.map (·.1.display)) ++ "]"

end Captures

end Graft
