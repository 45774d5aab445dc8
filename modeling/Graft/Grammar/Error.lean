import Graft.Text.Position
import Graft.Text.Quoted
import Graft.Token.Basic

/-! # Why a text is no program

Reading a text fails for one `Cause`, at one position.  The causes are kept apart from their
wording, which is `Cause.message`.
-/

namespace Graft

/-- What the grammar asked for at the place where reading stopped. -/
inductive Wanted where
  | token (t : Token)
  | statementEnd
  | identifier
  | typeExpr
  | expression
  | expressionEnd
  | statement
  | simpleStatement
  | declaration
  | importPath
  | selector
  | elseBranch
  deriving DecidableEq

/-- The wording of what was wanted. -/
def Wanted.phrase : Wanted → String
  | token t => "'" ++ t.text ++ "'"
  | statementEnd => "';'"
  | identifier => "identifier"
  | typeExpr => "type"
  | expression => "expression"
  | expressionEnd => "end of expression"
  | statement => "statement"
  | simpleStatement => "simple statement"
  | declaration => "declaration"
  | importPath => "import path"
  | selector => "selector or type assertion"
  | elseBranch => "if statement or block"

/-- The reasons for which a text is refused. -/
inductive Cause where
  /-- A block comment without its end. -/
  | openComment
  /-- A quoted literal without its closing quote. -/
  | openLiteral
  /-- A character no token begins with. -/
  | illegalCharacter (c : Char)
  /-- Another symbol than the grammar asks for; `found` is how the symbol is shown. -/
  | unexpected (wanted : Wanted) (found : String)
  /-- A parameter list in which some entries have a name and a type and others only a type. -/
  | mixedParameters
  /-- A parameter name at the end of a list that is followed by no type. -/
  | missingParameterType
  /-- A list of expressions where one expression is asked for. -/
  | notOneExpression
  /-- A statement where a condition is asked for. -/
  | notCondition
  /-- The nesting of the text used up the allowance that was computed from its length. -/
  | tooDeep
  deriving DecidableEq

/-- The wording of a cause. -/
def Cause.message : Cause → String
  | openComment => "comment not terminated"
  | openLiteral => "literal not terminated"
  | illegalCharacter c => "illegal character " ++ Quoted.char c
  | unexpected wanted found => "expected " ++ wanted.phrase ++ ", found " ++ found
  | mixedParameters => "mixed named and unnamed parameters"
  | missingParameterType => "missing parameter type"
  | notOneExpression => "expected 1 expression"
  | notCondition => "expected boolean expression"
  | tooDeep => "nested too deeply"

/-- A text that is no program: where reading stopped, and why. -/
structure ParseError where
  pos : Pos
  cause : Cause
  deriving DecidableEq

/-- The wording of a refusal. -/
def ParseError.message (e : ParseError) : String := e.cause.message

end Graft
