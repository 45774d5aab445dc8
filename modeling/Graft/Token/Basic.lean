/-! # Tokens

The terminal symbols of the Go language.  The same type serves the token stream and the operator and
keyword slots of trees.  `Token.text` is the fixed spelling of a symbol, and a descriptive word for
the symbols whose spelling varies (identifiers and literals).
-/

namespace Graft

/-- A terminal symbol of the language. -/
inductive Token where
  | illegal | eof | comment
  | ident | int | float | imag | char | string
  | add | sub | mul | quo | rem
  | and | or | xor | shl | shr | andNot
  | addAssign | subAssign | mulAssign | quoAssign | remAssign
  | andAssign | orAssign | xorAssign | shlAssign | shrAssign | andNotAssign
  | logicAnd | logicOr | arrow | inc | dec
  | eql | lss | gtr | assign | not
  | neq | leq | geq | define | ellipsis
  | lparen | lbrack | lbrace | comma | period
  | rparen | rbrack | rbrace | semicolon | colon | tilde
  | kwBreak | kwCase | kwChan | kwConst | kwContinue | kwDefault | kwDefer | kwElse | kwFallthrough
  | kwFor | kwFunc | kwGo | kwGoto | kwIf | kwImport | kwInterface | kwMap | kwPackage | kwRange
  | kwReturn | kwSelect | kwStruct | kwSwitch | kwType | kwVar
  deriving DecidableEq, Inhabited

namespace Token

/-- The spelling of a symbol; a word in capitals where the spelling is not fixed. -/
def text : Token → String
  | illegal => "ILLEGAL"
  | eof => "EOF"
  | comment => "COMMENT"
  | ident => "IDENT"
  | int => "INT"
  | float => "FLOAT"
  | imag => "IMAG"
  | char => "CHAR"
  | string => "STRING"
  | add => "+"
  | sub => "-"
  | mul => "*"
  | quo => "/"
  | rem => "%"
  | and => "&"
  | or => "|"
  | xor => "^"
  | shl => "<<"
  | shr => ">>"
  | andNot => "&^"
  | addAssign => "+="
  | subAssign => "-="
  | mulAssign => "*="
  | quoAssign => "/="
  | remAssign => "%="
  | andAssign => "&="
  | orAssign => "|="
  | xorAssign => "^="
  | shlAssign => "<<="
  | shrAssign => ">>="
  | andNotAssign => "&^="
  | logicAnd => "&&"
  | logicOr => "||"
  | arrow => "<-"
  | inc => "++"
  | dec => "--"
  | eql => "=="
  | lss => "<"
  | gtr => ">"
  | assign => "="
  | not => "!"
  | neq => "!="
  | leq => "<="
  | geq => ">="
  | define => ":="
  | ellipsis => "..."
  | lparen => "("
  | lbrack => "["
  | lbrace => "\x7b"
  | comma => ","
  | period => "."
  | rparen => ")"
  | rbrack => "]"
  | rbrace => "\x7d"
  | semicolon => ";"
  | colon => ":"
  | tilde => "~"
  | kwBreak => "break"
  | kwCase => "case"
  | kwChan => "chan"
  | kwConst => "const"
  | kwContinue => "continue"
  | kwDefault => "default"
  | kwDefer => "defer"
  | kwElse => "else"
  | kwFallthrough => "fallthrough"
  | kwFor => "for"
  | kwFunc => "func"
  | kwGo => "go"
  | kwGoto => "goto"
  | kwIf => "if"
  | kwImport => "import"
  | kwInterface => "interface"
  | kwMap => "map"
  | kwPackage => "package"
  | kwRange => "range"
  | kwReturn => "return"
  | kwSelect => "select"
  | kwStruct => "struct"
  | kwSwitch => "switch"
  | kwType => "type"
  | kwVar => "var"

/-- The reserved words. -/
def keywords : List Token :=
  [kwBreak, kwCase, kwChan, kwConst, kwContinue, kwDefault, kwDefer, kwElse, kwFallthrough,
    kwFor, kwFunc, kwGo, kwGoto, kwIf, kwImport, kwInterface, kwMap, kwPackage, kwRange,
    kwReturn, kwSelect, kwStruct, kwSwitch, kwType, kwVar]

/-- The reserved word with the given spelling. -/
def keyword? (word : String) : Option Token := keywords.find? (·.text == word)

/-- The operators and delimiters.  A symbol stands before every symbol its spelling begins with, so
that the first one a text begins with is the longest. -/
def operators : List Token :=
  [shlAssign, shrAssign, andNotAssign, ellipsis,
    logicAnd, logicOr, arrow, inc, dec, eql, neq, leq, geq, define,
    addAssign, subAssign, mulAssign, quoAssign, remAssign, andAssign, orAssign, xorAssign,
    shl, shr, andNot,
    add, sub, mul, quo, rem, and, or, xor, lss, gtr, assign, not,
    lparen, lbrack, lbrace, comma, period, rparen, rbrack, rbrace, semicolon, colon, tilde]

/-- How tightly a binary operator binds; zero for symbols that are no binary operator. -/
def precedence : Token → Nat
  | logicOr => 1
  | logicAnd => 2
  | eql | neq | lss | leq | gtr | geq => 3
  | add | sub | or | xor => 4
  | mul | quo | rem | shl | shr | and | andNot => 5
  | _ => 0

/-- Whether the symbol is a literal constant. -/
def isLiteral : Token → Bool
  | int | float | imag | char | string => true
  | _ => false

/-- Whether the symbol stands between the two sides of an assignment. -/
def isAssignment : Token → Bool
  | assign | define | addAssign | subAssign | mulAssign | quoAssign | remAssign | andAssign
  | orAssign | xorAssign | shlAssign | shrAssign | andNotAssign => true
  | _ => false

end Token

end Graft
