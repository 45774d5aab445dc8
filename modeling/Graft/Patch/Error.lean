import Graft.Grammar.Error

/-! # What is wrong with a patch

Reading and compiling a patch file goes on after a problem, so that one run reports all of them.  A
`PatchFault` says what is wrong, a `PatchError` adds the range of the patch file it is about.
-/

namespace Graft

/-- What the two sides of a patch are, in messages. -/
inductive BodySort where
  | nothing
  | expression
  | statements
  | declarations
  deriving DecidableEq

/-- The wording of what a side is. -/
def BodySort.phrase : BodySort → String
  | nothing => "nothing"
  | expression => "an expression"
  | statements => "statements"
  | declarations => "declarations"

/-- What is wrong with a patch. -/
inductive PatchFault where
  /-- A line outside of any patch. -/
  | strayLine
  /-- A header line that is no header. -/
  | badHeader (line : String)
  /-- A declaration that does not begin with its keyword. -/
  | declWithoutKeyword
  /-- A declaration without a type. -/
  | declWithoutType
  /-- A declaration of something that is no name. -/
  | declOfNoName (decl : String)
  | unknownMetaKind (name : String)
  | duplicateMetavar (name : String)
  /-- A header that is never closed. -/
  | missingBody
  /-- A side that is no code. -/
  | unreadable (cause : Cause)
  | emptyPattern
  /-- A package clause that only the replacement has. -/
  | packageOnlyInTemplate
  /-- A replacement for nothing. -/
  | nothingToReplace
  /-- Sides that cannot stand for one another. -/
  | mismatched (minus plus : BodySort)
  | misplacedDots
  | unboundMetavar (name : String)
  | badImportPath
  deriving DecidableEq

/-- The wording of a fault. -/
def PatchFault.message : PatchFault → String
  | strayLine => "Patch header must be `@@` or `@ name @`: expected `@@` before the patch"
  | badHeader line => "Patch header must be `@@` or `@ name @`: " ++ line
  | declWithoutKeyword => "Invalid metavariable declaration: expected `var`"
  | declWithoutType => "Invalid metavariable declaration: expected a type"
  | declOfNoName decl => "Invalid metavariable declaration: " ++ decl
  | unknownMetaKind name => "Unknown metavariable type: " ++ name
  | duplicateMetavar name => "Metavariable is declared more than once: " ++ name
  | missingBody => "Patch has no body after its header."
  | unreadable cause => "Cannot parse patch: " ++ cause.message
  | emptyPattern => "Pattern is empty. Use `-` lines to say what to match."
  | packageOnlyInTemplate =>
    "Pattern and replacement must be the same kind of code: "
      ++ "the package clause can only be changed if the pattern has one"
  | nothingToReplace =>
    "Pattern and replacement must be the same kind of code: there is no pattern to replace"
  | mismatched minus plus =>
    "Pattern and replacement must be the same kind of code: " ++ minus.phrase ++ " cannot become "
      ++ plus.phrase
  | misplacedDots => "`...` cannot appear here."
  | unboundMetavar name => "Metavariable is used in the replacement but never matched: " ++ name
  | badImportPath => "Invalid import in patch: bad path"

/-- A fault and the range of the patch file it is about. -/
structure PatchError where
  fault : PatchFault
  span : Span
  deriving DecidableEq

/-- A fault at a place of the patch file. -/
def PatchError.at (p : Pos) (fault : PatchFault) : PatchError := ⟨fault, ⟨p, p.advance 1⟩⟩

end Graft
