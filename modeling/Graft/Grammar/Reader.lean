import Graft.Token.Lexeme
import Graft.Tree.Basic

/-! # Readers

A reader consumes lexemes from a cursor and answers with a value, or refuses the text.  The last
lexeme of a text is its end, and a reader never moves past it.

Readers call each other in circles.  The circle is cut in `Graft.Grammar.File`; here and in the
modules between, a production is an ordinary definition over the productions it may use.  The only
recursion inside a production is `iterate`, which allows one round more than there are lexemes left:
every round that goes on consumes one.
-/

namespace Graft

/-- Comments that belong together: each stands alone on its line, right below the one before. -/
structure CommentGroup where
  tree : Tree
  start : Pos
  stop : Pos
  /-- The line on which the group ends. -/
  lastLine : Nat
  /-- Whether the first comment of the group stands alone on its line. -/
  ownLine : Bool

namespace CommentGroup

/-- The group of some comments that ends on the given line. -/
def ofComments (cs : List Comment) (lastLine : Nat) : CommentGroup where
  tree := .node .commentGroup [.list (cs.map fun c => .node .comment [.pos c.pos, .str c.text])]
  start := Pos.firstValid (cs.map (·.pos))
  stop := (cs.getLast?.map Comment.stop).getD .none
  lastLine := lastLine
  ownLine := (cs.head?.map (·.ownLine)).getD false

/-- Groups the comments of a text, where `open_` is the group read so far and ends on `lastLine`. -/
def groupFrom (lines : LineTable) (open_ : List Comment) (lastLine : Nat) :
    List Comment → List CommentGroup
  | [] => if open_.isEmpty then [] else [ofComments open_ lastLine]
  | c :: cs =>
    let line := (lines.line? c.pos).getD 0
    let endLine := (lines.line? c.stop).getD line
    if !open_.isEmpty && (!c.ownLine || lastLine + 1 < line) then
      ofComments open_ lastLine :: groupFrom lines [c] endLine cs
    else groupFrom lines (open_ ++ [c]) endLine cs

/-- The comments of a text in groups. -/
def group (lines : LineTable) (cs : List Comment) : List CommentGroup := groupFrom lines [] 0 cs

end CommentGroup

/-! ### The reader monad -/

/-- What readers know about the text besides its lexemes. -/
structure Context where
  dialect : Dialect
  lines : LineTable
  groups : List CommentGroup
  /-- Whether a brace behind a bare type name opens a composite literal.  It does not in the header
  of a statement, where it opens the body. -/
  literals : Bool

/-- What is left of the text. -/
structure Cursor where
  rest : List Lexeme
  /-- Where the lexeme before the rest stands, if there is one. -/
  previous : Option Pos

/-- A production of the grammar. -/
abbrev Reader := ReaderT Context (StateT Cursor (Except ParseError))

/-- How a lexeme is shown in messages. -/
def Lexeme.display (l : Lexeme) : String :=
  if l.token = .semicolon && l.text == "\n" then "newline"
  else if l.token = .ident || l.token.isLiteral then l.text
  else l.token.text

namespace Reader

/-- The lexeme in front. -/
def current : Reader Lexeme := do return (← get).rest.head?.getD ⟨.eof, .none, ""⟩

/-- The token in front. -/
def token : Reader Token := do return (← current).token

/-- Where the lexeme in front stands. -/
def position : Reader Pos := do return (← current).pos

/-- The token behind the one in front. -/
def following : Reader Token := do return ((← get).rest[1]?.map (·.token)).getD .eof

/-- Moves past the lexeme in front, unless it is the last. -/
def advance : Reader Unit :=
  modify fun c =>
    match c.rest with
    | l :: m :: ls => ⟨m :: ls, some l.pos⟩
    | _ => c

/-- Refuses the text at the given position. -/
def refuse {α : Type} (p : Pos) (cause : Cause) : Reader α := throw ⟨p, cause⟩

/-- Refuses the lexeme in front. -/
def unexpected {α : Type} (wanted : Wanted) : Reader α := do
  let l ← current
  refuse l.pos (.unexpected wanted l.display)

/-- Consumes the given token if it is in front, and answers where it stood. -/
def got? (t : Token) : Reader (Option Pos) := do
  let l ← current
  if l.token = t then
    advance
    return some l.pos
  else
    return none

/-- Consumes the given token, which has to be in front. -/
def expect (t : Token) : Reader Pos := do
  match ← got? t with
  | some p => return p
  | none => unexpected (.token t)

/-- Consumes the lexeme in front and answers where it stood. -/
def take : Reader Pos := do
  let p ← position
  advance
  return p

/-- The end of a statement: a semicolon, which may be left out before a closing token. -/
def endStatement : Reader Unit := do
  match ← token with
  | .semicolon => advance
  | .rparen | .rbrace | .eof => return ()
  | _ => unexpected .statementEnd

/-- Consumes a line end that stands right before the given closing token. -/
def skipLineEnd (close : Token) : Reader Unit := do
  let l ← current
  if l.token = .semicolon && l.text == "\n" && (← following) == close then advance

/-- Whether a wildcard is in front. -/
def atDots : Reader Bool := do
  return (← read).dialect == .pattern && (← token) == .ellipsis

/-- Consumes a wildcard. -/
def dots : Reader Tree := do return .dots (← take)

/-- Consumes an identifier. -/
def ident : Reader Tree := do
  let l ← current
  if l.token = .ident then
    advance
    return .ident l.pos l.text
  else
    unexpected .identifier

/-- Consumes the literal in front. -/
def basicLit : Reader Tree := do
  let l ← current
  advance
  return .node .basicLit [.pos l.pos, .tok l.token, .str l.text]

/-- The comment group that documents what stands at `p`: the last one that ends before it, if it
stands alone on its lines, ends on the line above, and no token stands between. -/
def docFor (p : Pos) : Reader Tree := do
  let ctx ← read
  match (ctx.groups.takeWhile (fun g => decide (g.stop ≤ p))).getLast? with
  | none => return .nil
  | some g =>
    let isNext :=
      match (← get).previous with
      | none => true
      | some q => decide (q < g.start)
    if g.ownLine && isNext && ctx.lines.line? p == some (g.lastLine + 1) then return g.tree
    else return .nil

/-- Runs a reader where a brace behind a bare type name is, or is not, a composite literal. -/
def withLiterals {α : Type} (allowed : Bool) (r : Reader α) : Reader α :=
  withReader (fun c => { c with literals := allowed }) r

/-! ### Repetition -/

/-- Repeats `body` until it answers with a result, for at most the given number of rounds. -/
def loop {σ α : Type} (body : σ → Reader (σ ⊕ α)) : Nat → σ → Reader α
  | 0, _ => do refuse (← position) .tooDeep
  | n + 1, s => do
    match ← body s with
    | .inl s => loop body n s
    | .inr a => return a

/-- Repeats `body` until it answers with a result.  Every round but the last consumes a lexeme. -/
def iterate {σ α : Type} (s : σ) (body : σ → Reader (σ ⊕ α)) : Reader α := do
  loop body ((← get).rest.length + 1) s

/-- One or more items with commas between. -/
def commaList {α : Type} (item : Reader α) : Reader (List α) := do
  let x ← item
  iterate [x] fun xs => do
    match ← got? .comma with
    | some _ => return .inl (xs ++ [← item])
    | none => return .inr xs

/-- Consumes semicolons. -/
def skipSemicolons : Reader Unit :=
  iterate () fun _ => do
    match ← got? .semicolon with
    | some _ => return .inl ()
    | none => return .inr ()

end Reader

/-- The productions through which the grammar calls itself. -/
structure Rules where
  /-- A type. -/
  type : Reader Tree
  /-- An operand with the operators in front of it. -/
  unary : Reader Tree
  /-- An expression whose binary operators bind at least as tightly as given. -/
  binary : Nat → Reader Tree
  /-- The braces of a composite literal of the given type. -/
  composite : Tree → Reader Tree
  /-- A block. -/
  block : Reader Tree
  /-- A conditional statement. -/
  ifStmt : Reader Tree
  /-- A statement, without its end. -/
  stmt : Reader Tree

namespace Rules

/-- An expression. -/
def expr (r : Rules) : Reader Tree := r.binary 1

/-- One or more expressions with commas between. -/
def exprList (r : Rules) : Reader (List Tree) := Reader.commaList r.expr

/-- An expression or a type.  A star in front means a pointer or a dereference, which read alike. -/
def exprOrType (r : Rules) : Reader Tree := do
  if (← Reader.token) == .mul then r.unary else r.expr

end Rules

end Graft
