import Graft.Grammar.Error
import Graft.Text.Source

/-! # Lexemes

A text is read in two steps.  `Piece.split` cuts it into **pieces** — newlines, blanks, comments and
tokens — without losing a character: each piece is the longest one of its kind at the front of what
is left, the rest is what remains behind it.  `Scan.ofPieces` then walks the pieces with a byte
offset, drops the blanks, sets the comments aside and adds the semicolons that line ends stand for.

A line end closes a statement when the last token before it can end one (`Token.endsStatement`); a
block comment that spans lines counts as a line end, and so does the end of the text.  In patterns
the wildcard `...` can end a statement too.
-/

namespace Graft

/-- What kind of text is read: program code, or a pattern, in which `...` is a wildcard. -/
inductive Dialect where
  | code
  | pattern
  deriving DecidableEq, Inhabited

/-- A token of a text. -/
structure Lexeme where
  token : Token
  pos : Pos
  /-- The characters of identifiers, literals and written semicolons; a newline for a semicolon that
  a line end stands for; nothing for symbols whose token fixes the spelling. -/
  text : String
  deriving DecidableEq, Inhabited

/-- A comment of a text. -/
structure Comment where
  pos : Pos
  text : String
  /-- Whether no token stands before the comment on its line. -/
  ownLine : Bool
  deriving DecidableEq, Inhabited

/-- Where a comment ends. -/
def Comment.stop (c : Comment) : Pos := c.pos.advance c.text.utf8ByteSize

/-! ### Pieces -/

/-- The kinds of pieces a text consists of. -/
inductive Piece.Class where
  | newline
  | blank
  | comment
  | token (t : Token)
  deriving DecidableEq

/-- A stretch of a text of one kind. -/
structure Piece where
  kind : Piece.Class
  text : List Char
  deriving DecidableEq

namespace Piece

/-- Letters of identifiers: those of ASCII, the underscore and everything outside ASCII. -/
def isLetter (c : Char) : Bool := c.isAlpha || c == '_' || 0x80 ≤ c.toNat

/-- Characters that continue an identifier. -/
def isWordChar (c : Char) : Bool := isLetter c || c.isDigit

/-- Characters that continue a run of decimal digits. -/
def isDigitChar (c : Char) : Bool := c.isDigit || c == '_'

/-- Characters that continue a number written in another base. -/
def isHexChar (c : Char) : Bool :=
  c.isDigit || ('a' ≤ c && c ≤ 'f') || ('A' ≤ c && c ≤ 'F') || c == '_'

/-- The length of the run of characters with property `p` at the front. -/
def runLength (p : Char → Bool) (cs : List Char) : Nat := (cs.takeWhile p).length

/-- Whether a letter behind a leading zero announces another base. -/
def isBaseLetter (c : Char) : Bool := ['x', 'X', 'b', 'B', 'o', 'O'].contains c

/-- The length of a fraction at the front, its point included; zero without a point. -/
def fractionLength : List Char → Nat
  | '.' :: cs => 1 + runLength isDigitChar cs
  | _ => 0

/-- The length of an exponent at the front, with its letter and sign; zero without the letter. -/
def exponentLength : List Char → Nat
  | c :: cs =>
    if c == 'e' || c == 'E' then
      match cs with
      | s :: ds =>
        if s == '+' || s == '-' then 2 + runLength isDigitChar ds
        else 1 + runLength isDigitChar cs
      | [] => 1
    else 0
  | [] => 0

/-- The kind and length of the number at the front, without the letter of an imaginary one. -/
def realNumber (cs : List Char) : Token × Nat :=
  let decimal :=
    let whole := runLength isDigitChar cs
    let fraction := fractionLength (cs.drop whole)
    let exponent := exponentLength (cs.drop (whole + fraction))
    (if fraction + exponent == 0 then Token.int else Token.float, whole + fraction + exponent)
  match cs with
  | '0' :: b :: ds => if isBaseLetter b then (.int, 2 + runLength isHexChar ds) else decimal
  | _ => decimal

/-- The kind and length of the number at the front. -/
def number (cs : List Char) : Token × Nat :=
  let (t, n) := realNumber cs
  if (cs.drop n).head? == some 'i' then (.imag, n + 1) else (t, n)

/-- The length of what is left of a quoted literal, its closing quote included.  Between back quotes
everything counts as it is; otherwise a backslash hides the character behind it and the line may not
end. -/
def quotedLength? (quote : Char) : List Char → Option Nat
  | [] => none
  | c :: cs =>
    if quote == '\x60' then
      if c == quote then some 1 else (quotedLength? quote cs).map (· + 1)
    else if c == '\n' then none
    else if c == '\\' then
      match cs with
      | [] => none
      | _ :: cs => (quotedLength? quote cs).map (· + 2)
    else if c == quote then some 1
    else (quotedLength? quote cs).map (· + 1)

/-- The length of what is left of a block comment, its end included. -/
def blockLength? : List Char → Option Nat
  | [] => none
  | c :: cs =>
    if c == '*' && cs.head? == some '/' then some 2 else (blockLength? cs).map (· + 1)

/-- The operator at the front: the first of the table whose spelling the text begins with. -/
def operator? (cs : List Char) : Option Token :=
  Token.operators.find? (fun t => t.text.toList.isPrefixOf cs)

/-- The token a word is: a reserved word, or an identifier. -/
def wordToken (word : List Char) : Token := (Token.keyword? (String.ofList word)).getD .ident

/-- The kind of the token at the front of `c :: cs`, and how many characters of `cs` belong to
it. -/
def recogniseToken (c : Char) (cs : List Char) : Except Cause (Token × Nat) :=
  if isLetter c then
    let word := cs.takeWhile isWordChar
    .ok (wordToken (c :: word), word.length)
  else if c.isDigit || (c == '.' && (cs.head?.map Char.isDigit).getD false) then
    let (t, n) := number (c :: cs)
    .ok (t, n - 1)
  else if c == '\x22' || c == '\x27' || c == '\x60' then
    match quotedLength? c cs with
    | some n => .ok (if c == '\x27' then .char else .string, n)
    | none => .error .openLiteral
  else
    match operator? (c :: cs) with
    | some t => .ok (t, t.text.length - 1)
    | none => .error (.illegalCharacter c)

/-- The kind of the piece at the front of `c :: cs`, and how many characters of `cs` belong to
it. -/
def recognise (c : Char) (cs : List Char) : Except Cause (Class × Nat) :=
  if c == '\n' then .ok (.newline, 0)
  else if c == ' ' || c == '\t' || c == '\r' then .ok (.blank, 0)
  else if c == '/' && cs.head? == some '/' then .ok (.comment, runLength (· != '\n') cs)
  else if c == '/' && cs.head? == some '*' then
    match blockLength? (cs.drop 1) with
    | some n => .ok (.comment, n + 1)
    | none => .error .openComment
  else (recogniseToken c cs).map fun (t, n) => (.token t, n)

/-- Cuts a text that begins at `offset` into its pieces. -/
def split (offset : Nat) : List Char → Except ParseError (List Piece)
  | [] => .ok []
  | c :: cs =>
    match recognise c cs with
    | .error cause => .error ⟨.atOffset offset, cause⟩
    | .ok (kind, n) =>
      let text := c :: cs.take n
      (split (offset + byteLength text) (cs.drop n)).map (⟨kind, text⟩ :: ·)
termination_by cs => cs.length
decreasing_by
  rw [List.length_drop, List.length_cons]
  omega

end Piece

/-! ### Lexemes and comments -/

/-- Whether a line end behind the token closes a statement. -/
def Token.endsStatement (d : Dialect) : Token → Bool
  | .ident | .kwBreak | .kwContinue | .kwFallthrough | .kwReturn => true
  | .int | .float | .imag | .char | .string => true
  | .rparen | .rbrack | .rbrace | .inc | .dec => true
  | .ellipsis => d == .pattern
  | _ => false

/-- Whether a lexeme of the token carries its characters. -/
def Token.carriesText : Token → Bool
  | .ident | .semicolon => true
  | t => t.isLiteral

/-- The tokens of a text, the end of the text last, and its comments, both in order. -/
structure Scan where
  lexemes : List Lexeme
  comments : List Comment
  deriving DecidableEq, Inhabited

namespace Scan

/-- The semicolon a line end at `offset` stands for. -/
def lineEnd (offset : Nat) : Lexeme := ⟨.semicolon, .atOffset offset, "\n"⟩

/-- Puts a lexeme in front. -/
def pushLexeme (l : Lexeme) (s : Scan) : Scan := { s with lexemes := l :: s.lexemes }

/-- Puts a semicolon in front where a statement is open. -/
def closeLine (isOpen : Bool) (offset : Nat) (s : Scan) : Scan :=
  if isOpen then s.pushLexeme (lineEnd offset) else s

/-- The lexemes and comments of the pieces of a text that begins at `offset`.  `isOpen` tells
whether the last token can end a statement that no line end has closed yet, and `busy` whether a
token stands on the current line already. -/
def ofPieces (d : Dialect) (offset : Nat) (isOpen busy : Bool) : List Piece → Scan
  | [] => closeLine isOpen offset ⟨[⟨.eof, .atOffset offset, ""⟩], []⟩
  | p :: ps =>
    let next := offset + byteLength p.text
    match p.kind with
    | .newline => closeLine isOpen offset (ofPieces d next false false ps)
    | .blank => ofPieces d next isOpen busy ps
    | .comment =>
      let isClosed := isOpen && p.text.contains '\n'
      let rest := ofPieces d next (isOpen && !isClosed) busy ps
      let comment : Comment := ⟨.atOffset offset, String.ofList p.text, !busy⟩
      closeLine isClosed offset { rest with comments := comment :: rest.comments }
    | .token t =>
      let text := if t.carriesText then String.ofList p.text else ""
      (ofPieces d next (t.endsStatement d) true ps).pushLexeme ⟨t, .atOffset offset, text⟩

/-- The tokens and comments of a text. -/
def ofText (d : Dialect) (cs : List Char) : Except ParseError Scan :=
  (Piece.split 0 cs).map (ofPieces d 0 false false)

end Scan

end Graft
