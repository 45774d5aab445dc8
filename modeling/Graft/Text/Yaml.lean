/-! # YAML

Documents in block style.  A document is a list of lines; a mapping indents the lines of a value
below its key by two blanks, and a sequence puts a dash before the first line of each item.

A text is written in the plainest form that reads back as it (`Yaml.form`):

* as it is, where it holds no sign that means something in a document and cannot be taken for a
  number, a truth value or nothing;
* on lines of its own, where it has several lines;
* between single quotes otherwise, and between double quotes where it holds characters that have to
  be escaped.
-/

namespace Graft.Yaml

/-! ### Characters -/

/-- Whether a character ends a line. -/
def isBreak (c : Char) : Bool :=
  c == '\n' || c == '\r' || c.toNat == 0x85 || c.toNat == 0x2028 || c.toNat == 0x2029

/-- Whether a character parts words. -/
def isSpacing (c : Char) : Bool := c == ' ' || c == '\t' || c.toNat == 0 || isBreak c

/-- Whether a character can be shown.  Tabs and the byte order mark cannot. -/
def isShown (c : Char) : Bool :=
  let n := c.toNat
  n == 0xa || (0x20 ≤ n && n ≤ 0x7e) || (0xa0 ≤ n && n != 0xfeff && n != 0xfffe && n != 0xffff)

/-! ### Numbers -/

/-- The number that digits of a base spell, if there are any and all of them are digits. -/
def ofDigits? (base : Nat) (cs : List Char) : Option Nat :=
  if cs.isEmpty then none
  else
    cs.foldlM
      (fun n c =>
        let d :=
          if c.isDigit then c.toNat - '0'.toNat
          else if c.isAlpha then c.toLower.toNat - 'a'.toNat + 10
          else base
        if d < base then some (n * base + d) else none)
      0

/-- A text without its sign, and whether the sign is a minus. -/
def unsigned : List Char → List Char × Bool
  | '+' :: cs => (cs, false)
  | '-' :: cs => (cs, true)
  | cs => (cs, false)

/-- Whether a text is a whole number in another base than ten.  Such numbers have at most 128
bits. -/
def isBasedNumber (cs : List Char) : Bool :=
  let (body, isNegative) := unsigned cs
  let limit := if isNegative then Nat.pow 2 127 else Nat.pow 2 128 - 1
  let digits? :=
    match body with
    | '0' :: 'x' :: ds => ofDigits? 16 ds
    | '0' :: 'o' :: ds => ofDigits? 8 ds
    | '0' :: 'b' :: ds => ofDigits? 2 ds
    | _ => none
  digits?.any (· ≤ limit)

/-- Whether a text is a zero with digits behind it, which some readers take for a number. -/
def isPaddedNumber (cs : List Char) : Bool :=
  match (unsigned cs).1 with
  | '0' :: d :: ds => (d :: ds).all Char.isDigit
  | _ => false

/-- A decimal number `digits · 10 ^ exponent`. -/
structure Decimal where
  digits : Nat
  exponent : Int

/-- The exponent at the end of a number; zero if there is none. -/
def exponent? : List Char → Option Int
  | [] => some 0
  | c :: cs =>
    if c == 'e' || c == 'E' then
      let (digits, isNegative) := unsigned cs
      (ofDigits? 10 digits).map fun n => if isNegative then -(n : Int) else n
    else none

/-- The decimal number that a text without sign spells. -/
def decimal? (cs : List Char) : Option Decimal := do
  let whole := cs.takeWhile Char.isDigit
  let behind := cs.dropWhile Char.isDigit
  let (fraction, rest) :=
    match behind with
    | '.' :: cs => (cs.takeWhile Char.isDigit, cs.dropWhile Char.isDigit)
    | cs => ([], cs)
  let digits ← ofDigits? 10 (whole ++ fraction)
  return ⟨digits, (← exponent? rest) - fraction.length⟩

/-- Whether a decimal number is small enough for a double: below the middle between the largest
double and the next power of two. -/
def Decimal.isFinite (d : Decimal) : Bool :=
  if d.digits = 0 then true
  else
    let magnitude : Int := (Nat.toDigits 10 d.digits).length + d.exponent
    let limit := Nat.pow 2 1024 - Nat.pow 2 970
    if magnitude ≤ 308 then true
    else if 310 ≤ magnitude then false
    else if 0 ≤ d.exponent then decide (d.digits * Nat.pow 10 d.exponent.toNat < limit)
    else decide (d.digits < limit * Nat.pow 10 (-d.exponent).toNat)

/-- Whether a text is a real number. -/
def isReal (cs : List Char) : Bool :=
  let body := String.ofList (unsigned cs).1
  [".inf", ".Inf", ".INF"].contains body || [".nan", ".NaN", ".NAN"].contains (String.ofList cs)
    || (decimal? (unsigned cs).1).any Decimal.isFinite

/-- Whether a plain text can be taken for something else than text. -/
def readsAsOther (s : String) : Bool :=
  ["", "~", "null", "Null", "NULL"].contains s
    || ["true", "True", "TRUE", "false", "False", "FALSE"].contains s
    || isBasedNumber s.toList || isPaddedNumber s.toList || isReal s.toList

/-! ### Plain texts -/

/-- Whether a plain text may begin with `c` before `next`. -/
def opensPlain (c : Char) (next : Option Char) : Bool :=
  let indicators :=
    ['#', ',', '[', ']', '\x7b', '\x7d', '&', '*', '!', '|', '>', '\x27', '\x22', '%', '@', '\x60']
  let isMark := (c == '?' || c == ':' || c == '-') && next.all isSpacing
  !indicators.contains c && !isMark && c != ' '

/-- Whether a plain text may go on with the given characters behind `prev`. -/
def continuesPlain (prev : Char) : List Char → Bool
  | [] => prev != ' '
  | c :: cs =>
    let isRemark := c == '#' && isSpacing prev
    let isMark := c == ':' && cs.head?.all isSpacing
    !isRemark && !isMark && continuesPlain c cs

/-- Whether a text holds no sign that means something in a document. -/
def isUnmarked (cs : List Char) : Bool :=
  let isFence := ['-', '-', '-'].isPrefixOf cs || ['.', '.', '.'].isPrefixOf cs
  match cs with
  | [] => false
  | c :: rest =>
    !isFence && opensPlain c rest.head? && continuesPlain c rest
      && cs.all fun c => isShown c && !isBreak c

/-! ### Forms of texts -/

/-- How a text is written. -/
inductive Form where
  | plain
  /-- On lines of its own. -/
  | block
  | singleQuoted
  | doubleQuoted
  deriving DecidableEq

/-- Whether a line of a text ends with a blank. -/
def hasTrailingBlank : List Char → Bool
  | [] => false
  | c :: cs => (c == ' ' && cs.head?.all isBreak) || hasTrailingBlank cs

/-- Whether a blank stands beside a line end. -/
def hasBlankAtBreak : List Char → Bool
  | a :: b :: cs => (a == ' ' && isBreak b) || (isBreak a && b == ' ') || hasBlankAtBreak (b :: cs)
  | _ => false

/-- The form in which a text is written. -/
def form (s : String) : Form :=
  let cs := s.toList
  if cs.contains '\n' then
    if cs.all isShown && !hasTrailingBlank cs then .block else .doubleQuoted
  else if isUnmarked cs && !readsAsOther s then .plain
  else if cs.all isShown && !hasBlankAtBreak cs then .singleQuoted
  else .doubleQuoted

/-- The last digits of a number in base sixteen, as many as asked for. -/
def hexDigits : Nat → Nat → List Char
  | 0, _ => []
  | places + 1, n => hexDigits places (n / 16) ++ [(Nat.digitChar (n % 16)).toUpper]

/-- The letter that stands for a character behind a backslash. -/
def escapeLetter? (c : Char) : Option Char :=
  match c.toNat with
  | 0x00 => some '0'
  | 0x07 => some 'a'
  | 0x08 => some 'b'
  | 0x09 => some 't'
  | 0x0a => some 'n'
  | 0x0b => some 'v'
  | 0x0c => some 'f'
  | 0x0d => some 'r'
  | 0x1b => some 'e'
  | 0x22 => some '\x22'
  | 0x5c => some '\\'
  | 0x85 => some 'N'
  | 0x2028 => some 'L'
  | 0x2029 => some 'P'
  | _ => none

/-- A character between double quotes. -/
def escape (c : Char) : List Char :=
  match escapeLetter? c with
  | some letter => ['\\', letter]
  | none =>
    if isShown c then [c]
    else if c.toNat < 0x100 then '\\' :: 'x' :: hexDigits 2 c.toNat
    else '\\' :: 'u' :: hexDigits 4 c.toNat

/-- A character between single quotes. -/
def double (c : Char) : List Char := if c == '\x27' then [c, c] else [c]

/-- A text between quotes, with its characters written as `write` says. -/
def quoted (quote : Char) (write : Char → List Char) (s : String) : String :=
  String.ofList (quote :: s.toList.flatMap write ++ [quote])

/-! ### Values -/

/-- A value in a document. -/
inductive Block where
  /-- A value that fits behind its key. -/
  | inline (text : String)
  /-- A text on lines of its own, and the sign that announces it. -/
  | paragraph (sign : String) (lines : List String)
  /-- The lines of a mapping. -/
  | mapping (lines : List String)
  /-- The lines of a sequence. -/
  | sequence (lines : List String)

/-- Puts two blanks before each line that begins in a text, the first one included if `atStart` is
set.  An empty line stays empty. -/
def indent (atStart : Bool) : List Char → List Char
  | [] => []
  | c :: cs =>
    if isBreak c then c :: indent true cs
    else if atStart then ' ' :: ' ' :: c :: indent false cs
    else c :: indent false cs

/-- A line one level deeper. -/
def deeper (line : String) : String := String.ofList (indent true line.toList)

namespace Block

/-- The sign before a text on lines of its own: the indentation is given where the text begins with
blanks, and the last sign tells how many line ends close it. -/
def textSign (cs : List Char) : String :=
  let indentation := if cs.head?.any (fun c => c == ' ' || isBreak c) then "2" else ""
  let closing :=
    match cs.reverse with
    | [] => "-"
    | c :: rest => if !isBreak c then "-" else if rest.head?.all isBreak then "+" else ""
  "|" ++ indentation ++ closing

/-- A text. -/
def ofText (s : String) : Block :=
  match form s with
  | .plain => inline s
  | .singleQuoted => inline (quoted '\x27' double s)
  | .doubleQuoted => inline (quoted '\x22' escape s)
  | .block =>
    let lines := s.splitOn "\n"
    paragraph (textSign s.toList) (if lines.getLast? == some "" then lines.dropLast else lines)

/-- The lines of an entry of a mapping; a tag stands between the key and its value. -/
def entry (key : String) (tag : Option String) (value : Block) : List String :=
  let front := key ++ ":" ++ (tag.map (" !" ++ ·)).getD ""
  match value with
  | inline text => [front ++ " " ++ String.ofList (indent false text.toList)]
  | paragraph sign lines => (front ++ " " ++ sign) :: lines.map deeper
  | mapping lines => front :: lines.map deeper
  | sequence lines => front :: lines

/-- The lines of a value. -/
def lines : Block → List String
  | inline text => [text]
  | paragraph sign ls => sign :: ls.map deeper
  | mapping ls | sequence ls => ls

/-- The lines of an item of a sequence. -/
def item (value : Block) : List String :=
  match value.lines with
  | [] => []
  | first :: rest => ("- " ++ first) :: rest.map deeper

/-- A sequence of values. -/
def ofItems : List Block → Block
  | [] => inline "[]"
  | items => sequence (items.flatMap item)

/-- The document that holds a value. -/
def document (value : Block) : String := String.join (value.lines.map (· ++ "\n"))

end Block

end Graft.Yaml
