import Graft.Grammar.Type

/-! # Expressions

Productions for operands, the selectors, indices, calls and literals that follow them, and the
operators around them.  Binary operators associate to the left: the right operand of an operator
binds more tightly than the operator itself.
-/

namespace Graft.Rules

open Reader

/-- An expression in parentheses. -/
def paren (r : Rules) : Reader Tree := do
  let lparen ← take
  let x ← withLiterals true r.exprOrType
  skipLineEnd .rparen
  let rparen ← expect .rparen
  return .node .parenExpr [.pos lparen, x, .pos rparen]

/-- A function type, or a function literal if a body follows it. -/
def funcOperand (r : Rules) : Reader Tree := do
  let type ← r.type
  if (← token) == .lbrace then
    return .node .funcLit [type, ← withLiterals true r.block]
  else
    return type

/-- An operand. -/
def operand (r : Rules) : Reader Tree := do
  match ← token with
  | .ident => ident
  | .int | .float | .imag | .char | .string => basicLit
  | .lparen => r.paren
  | .kwFunc => r.funcOperand
  | .lbrack | .kwMap | .kwStruct | .kwInterface => r.type
  | _ => if ← atDots then dots else unexpected .expression

/-- A selector or type assertion on `x`. -/
def selector (r : Rules) (x : Tree) : Reader Tree := do
  advance
  match ← token with
  | .ident => return .node .selectorExpr [x, ← ident]
  | .lparen =>
    let lparen ← take
    let type ← r.type
    let rparen ← expect .rparen
    return .node .typeAssertExpr [x, .pos lparen, type, .pos rparen]
  | _ => unexpected .selector

/-- An index or a slice of `x`. -/
def indexOrSlice (r : Rules) (x : Tree) : Reader Tree := do
  let lbrack ← expect .lbrack
  withLiterals true do
    let low ← if (← token) == .colon then pure .nil else r.expr
    match ← got? .colon with
    | some _ =>
      let high ← if (← token) == .rbrack then pure .nil else r.expr
      let rbrack ← expect .rbrack
      return .node .sliceExpr [x, .pos lbrack, low, high, .pos rbrack]
    | none =>
      let rbrack ← expect .rbrack
      return .node .indexExpr [x, .pos lbrack, low, .pos rbrack]

/-- The arguments of a call, and where the dots behind the last one stand. -/
def arguments (r : Rules) : Reader (List Tree × Pos) :=
  iterate ([], .none) fun (args, spread) => do
    skipLineEnd .rparen
    match ← token with
    | .rparen | .eof => return .inr (args, spread)
    | _ =>
      let args := args ++ [← r.exprOrType]
      let spread := (← got? .ellipsis).getD spread
      match ← got? .comma with
      | some _ => return .inl (args, spread)
      | none => return .inr (args, spread)

/-- A call of `f`. -/
def call (r : Rules) (f : Tree) : Reader Tree := do
  let lparen ← expect .lparen
  let (args, spread) ← withLiterals true r.arguments
  skipLineEnd .rparen
  let rparen ← expect .rparen
  return .node .callExpr [f, .pos lparen, .list args, .pos spread, .pos rparen]

/-- A value inside a composite literal; the type of a nested literal may be left out. -/
def elementValue (r : Rules) : Reader Tree := do
  if (← token) == .lbrace then r.composite .nil else r.expr

/-- An element of a composite literal, which may have a key. -/
def element (r : Rules) : Reader Tree := do
  let x ← r.elementValue
  match ← got? .colon with
  | some colon => return .node .keyValueExpr [x, .pos colon, ← r.elementValue]
  | none => return x

/-- The elements of a composite literal. -/
def elements (r : Rules) : Reader (List Tree) :=
  iterate [] fun elts => do
    skipLineEnd .rbrace
    match ← token with
    | .rbrace | .eof => return .inr elts
    | _ =>
      let elts := elts ++ [← r.element]
      match ← got? .comma with
      | some _ => return .inl elts
      | none => return .inr elts

/-- The braces of a composite literal of the given type. -/
def compositeStep (r : Rules) (type : Tree) : Reader Tree := do
  let lbrace ← expect .lbrace
  let elts ← withLiterals true r.elements
  skipLineEnd .rbrace
  let rbrace ← expect .rbrace
  return .node .compositeLit [type, .pos lbrace, .list elts, .pos rbrace]

/-- Whether a brace behind `x` opens a composite literal. -/
def isLiteralType (x : Tree) : Reader Bool := do
  match x.kind? with
  | some .ident | some .selectorExpr => return (← read).literals
  | some .arrayType | some .mapType | some .structType => return true
  | _ => return false

/-- An operand and what follows it. -/
def primary (r : Rules) : Reader Tree := do
  iterate (← r.operand) fun x => do
    match ← token with
    | .period => return .inl (← r.selector x)
    | .lbrack => return .inl (← r.indexOrSlice x)
    | .lparen => return .inl (← r.call x)
    | .lbrace => if ← isLiteralType x then return .inl (← r.composite x) else return .inr x
    | _ => return .inr x

/-- An operand with the operators in front of it. -/
def unaryStep (r : Rules) : Reader Tree := do
  match ← token with
  | .add | .sub | .not | .xor | .and | .arrow =>
    let l ← current
    advance
    return .node .unaryExpr [.pos l.pos, .tok l.token, ← r.unary]
  | .mul =>
    let star ← take
    return .node .starExpr [.pos star, ← r.unary]
  | _ => r.primary

/-- An expression whose binary operators bind at least as tightly as `least`. -/
def binaryStep (r : Rules) (least : Nat) : Reader Tree := do
  iterate (← r.unary) fun x => do
    let l ← current
    if l.token.precedence < least then return .inr x
    advance
    let y ← r.binary (l.token.precedence + 1)
    return .inl (.node .binaryExpr [x, .pos l.pos, .tok l.token, y])

end Graft.Rules
