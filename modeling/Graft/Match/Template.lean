import Graft.Match.Pattern

/-! # Templates

A template builds a tree out of the captures of a match.  Tokens of the template that have a
counterpart in the pattern get the place at which the counterpart was found; other tokens are placed
at a cursor, which starts at the site of the match and moves behind each run that is put in.  So the
printer finds the new tree where the old one stood.

Whatever is taken over from the match as it is — values of metavariables, runs, loop headers, field
lists and comments — is put on record as spared, so that its text survives.
-/

namespace Graft

/-! ### Why a replacement cannot be built -/

/-- What a template asks for and the match does not have. -/
inductive MissingPart where
  | run
  | metavar (name : String)
  | fieldList
  | loopHeader
  | container
  deriving DecidableEq

/-- The wording of what is missing. -/
def MissingPart.phrase : MissingPart → String
  | run => "`...`"
  | metavar name => "metavariable " ++ name
  | fieldList => "`(...)`"
  | loopHeader => "`for ...`"
  | container => "the enclosing block"

/-- How a built value fails to fit. -/
inductive Misfit where
  /-- A value of some kind, or none, in a field of a node. -/
  | inField (value : Option Kind) (l : Label) (kind : Kind)
  /-- A value of some kind, or none, as the body of a loop. -/
  | asLoopBody (value : Option Kind)
  /-- A value of some kind, or none, at the site of the match. -/
  | atSite (value : Option Kind) (p : Pos)
  /-- Items in the list of a container. -/
  | inContainer (kind : Kind)
  deriving DecidableEq

/-- How messages name the kind of a value. -/
def kindPhrase : Option Kind → String
  | some k => "Some(" ++ k.name ++ ")"
  | none => "None"

/-- The wording of a misfit. -/
def Misfit.message : Misfit → String
  | inField value l kind =>
    kindPhrase value ++ " cannot be used as " ++ l.spelling ++ " of " ++ kind.name
  | asLoopBody value => kindPhrase value ++ " cannot be used as the body of a loop"
  | atSite value p => kindPhrase value ++ " does not fit where " ++ p.display ++ " was"
  | inContainer kind => "replacement does not fit in " ++ kind.name

/-- Why a replacement cannot be built. -/
inductive BuildError where
  /-- The match does not have what the template asks for at a place. -/
  | missing (part : MissingPart) (p : Pos)
  /-- A built value does not fit where it belongs. -/
  | misfit (m : Misfit)
  deriving DecidableEq

namespace BuildError

/-- What the author of the patch may do about it. -/
def hint? : BuildError → Option String
  | missing _ _ =>
    some ("`...` and positions are paired by patch line: a `...` that appears only on "
      ++ "a `+` or `-` line has no counterpart on the other side")
  | misfit _ => none

/-- The place in the template at which building stopped. -/
def pos : BuildError → Pos
  | missing _ p => p
  | misfit _ => .none

/-- The wording, without the hint. -/
def reason : BuildError → String
  | missing part _ => "match data not found for " ++ part.phrase
  | misfit m => m.message

/-- The wording, with the hint if there is one. -/
def message (e : BuildError) : String :=
  match e.hint? with
  | some hint => e.reason ++ " (hint: " ++ hint ++ ")"
  | none => e.reason

/-- Whether a value did not fit; such a match is passed over. -/
def isMisfit : BuildError → Bool
  | misfit _ => true
  | missing _ _ => false

end BuildError

/-! ### Templates -/

mutual

/-- How to build a value. -/
inductive Template where
  | nil
  | node (kind : Kind) (fields : List Template)
  | list (items : List TemplateItem)
  /-- A token at a place of the template, and the place of its counterpart in the pattern. -/
  | pos (p : Pos) (counterpart : Option Pos)
  | str (s : String)
  | tok (t : Token)
  /-- A comment above a node: its own, or else the one of the node's counterpart in the pattern. -/
  | doc (counterpart : Option Pos) (own : Template)
  | metavar (name : String) (p : Pos)
  /-- A field list elided by the wildcard at `dots`. -/
  | fieldList (dots : Pos) (counterpart : Option Pos)
  /-- A loop whose header is elided by the wildcard at `dots`. -/
  | loop (dots : Pos) (counterpart : Option Pos) (body : Template)

/-- How to build elements of a list. -/
inductive TemplateItem where
  | one (t : Template)
  /-- The run filed under a key, for the wildcard at `dots`. -/
  | splice (key : Option Key) (dots : Pos)

end

/-- What a template under way keeps track of. -/
structure Draft where
  /-- Where tokens without a counterpart are placed. -/
  cursor : Pos
  /-- The ranges taken over from the match, oldest first. -/
  spared : List Span

/-- The building of a part of a tree. -/
abbrev Builder := StateT Draft (Except BuildError)

namespace Builder

/-- Puts a range on record as taken over. -/
def spare (s : Span) : Builder Unit := modify fun d => { d with spared := d.spared ++ [s] }

/-- Moves the cursor, unless to nowhere. -/
def moveTo (p : Pos) : Builder Unit :=
  modify fun d => if p.isValid then { d with cursor := p } else d

/-- What the match has, or the error that it is missing. -/
def require {α : Type} (found : Option α) (part : MissingPart) (p : Pos) : Builder α :=
  match found with
  | some a => pure a
  | none => throw (.missing part p)

end Builder

/-- The first field of a node whose value does not fit its slot. -/
def firstMisfit (k : Kind) (fields : List Tree) : Option Misfit :=
  ((k.fields.zip fields).find? fun (f, t) => !f.slot.accepts t).map fun (f, t) =>
    .inField t.kind? f.label k

namespace Template

open Builder

/-- Whether the template builds nothing. -/
def isNil : Template → Bool
  | nil => true
  | _ => false

mutual

/-- Builds a value. -/
def build (c : Captures) : Template → Builder Tree
  | nil => pure .nil
  | node k fs => do
    let fields ← buildAll c fs
    match firstMisfit k fields with
    | some m => throw (.misfit m)
    | none => pure (.node k fields)
  | list items => do return .list (← buildItems c items)
  | pos p counterpart => do
    if !p.isValid then return .pos .none
    let bound := counterpart.bind fun q => c.pos? (.pos q)
    return .pos (bound.getD (← get).cursor)
  | str s => pure (.str s)
  | tok t => pure (.tok t)
  | doc counterpart own =>
    if own.isNil then
      match counterpart.bind fun q => c.captured? (.doc q) with
      | some (value, span) => do
        spare span
        return value
      | none => pure .nil
    else build c own
  | metavar name p => do
    let (value, span) ← require (c.metavar? name) (.metavar name) p
    spare span
    return value
  | fieldList dots counterpart => do
    let (value, span) ←
      require (counterpart.bind fun q => c.captured? (.fieldList q)) .fieldList dots
    spare span
    return value
  | loop dots counterpart body => do
    let (header, span) ←
      require (counterpart.bind fun q => c.captured? (.loopHeader q)) .loopHeader dots
    let header ← require header.node? .loopHeader dots
    spare span
    moveTo span.stop
    let body ← build c body
    if body.isKind .blockStmt then return header.set .body body
    else throw (.misfit (.asLoopBody body.kind?))

/-- Builds values one by one. -/
def buildAll (c : Captures) : List Template → Builder (List Tree)
  | [] => pure []
  | t :: ts => do
    let value ← build c t
    return value :: (← buildAll c ts)

/-- Builds the elements of a list. -/
def buildItems (c : Captures) : List TemplateItem → Builder (List Tree)
  | [] => pure []
  | .one t :: items => do
    let value ← build c t
    return value :: (← buildItems c items)
  | .splice key dots :: items => do
    let (run, span) ← require (key.bind c.run?) .run dots
    spare span
    moveTo span.stop
    return run ++ (← buildItems c items)

end

end Template

end Graft
