import Graft.Grammar.Expr

/-! # Declarations and statements

Productions for declarations of constants, variables, types and imports, and for statements.  The
header of a conditional, switch or loop is read with composite literals of bare type names switched
off, because the brace there opens the body.
-/

namespace Graft.Rules

open Reader

/-! ### Declarations with specifications -/

/-- An import: perhaps a name or a period, and a path. -/
def importSpec (doc : Tree) : Reader Tree := do
  let name ←
    match ← token with
    | .ident => ident
    | .period => pure (.ident (← take) ".")
    | _ => pure .nil
  if (← token) == .string then
    return .node .importSpec [doc, name, ← basicLit]
  else
    unexpected .importPath

/-- A type and its name. -/
def typeSpec (r : Rules) (doc : Tree) : Reader Tree := do
  let name ← ident
  let assign := (← got? .assign).getD .none
  return .node .typeSpec [doc, name, .pos assign, ← r.type]

/-- Names of constants or variables with their type and values, either of which may be missing. -/
def valueSpec (r : Rules) (doc : Tree) : Reader Tree := do
  let names ← commaList ident
  let type ←
    match ← token with
    | .assign | .semicolon | .rparen | .eof => pure .nil
    | _ => r.type
  let values ←
    match ← got? .assign with
    | some _ => r.exprList
    | none => pure []
  return .node .valueSpec [doc, .list names, type, .list values]

/-- One specification of a declaration with the given keyword. -/
def spec (r : Rules) (keyword : Token) : Reader Tree := do
  if ← atDots then
    dots
  else
    let doc ← docFor (← position)
    match keyword with
    | .kwImport => importSpec doc
    | .kwType => r.typeSpec doc
    | _ => r.valueSpec doc

/-- A declaration with the keyword in front, without the end of the statement. -/
def declaration (r : Rules) (doc : Tree) : Reader Tree := do
  let l ← current
  advance
  let build (lparen : Pos) (specs : List Tree) (rparen : Pos) : Tree :=
    .node .genDecl [doc, .pos l.pos, .tok l.token, .pos lparen, .list specs, .pos rparen]
  match ← got? .lparen with
  | some lparen =>
    let specs ← iterate [] fun specs => do
      match ← token with
      | .rparen | .eof => return .inr specs
      | _ =>
        let s ← r.spec l.token
        endStatement
        return .inl (specs ++ [s])
    return build lparen specs (← expect .rparen)
  | none => return build .none [← r.spec l.token] .none

/-! ### Simple statements -/

/-- A statement that fits into a header: a simple one, or the clause of a loop over a range. -/
inductive Simple where
  | stmt (t : Tree)
  | range (targets : List Tree) (tokPos : Pos) (tok : Token) (range : Pos) (x : Tree)

/-- The only expression of a list. -/
def single (xs : List Tree) (p : Pos) : Reader Tree :=
  match xs with
  | [x] => return x
  | _ => refuse p .notOneExpression

/-- The expression a statement consists of. -/
def condition (stmt : Tree) (p : Pos) : Reader Tree :=
  match stmt with
  | .node .exprStmt fields => return fields.head?.getD .nil
  | _ => refuse p .notCondition

/-- A simple statement, or a range clause where one may stand. -/
def simple (r : Rules) (rangeAllowed : Bool) : Reader Simple := do
  if rangeAllowed && (← token) == .kwRange then
    let range ← take
    return .range [] .none .illegal range (← r.expr)
  let lhs ← r.exprList
  let l ← current
  if l.token.isAssignment then
    advance
    if rangeAllowed && (← token) == .kwRange && (l.token == .assign || l.token == .define) then
      let range ← take
      return .range lhs l.pos l.token range (← r.expr)
    return .stmt (.node .assignStmt [.list lhs, .pos l.pos, .tok l.token, .list (← r.exprList)])
  else if l.token == .inc || l.token == .dec then
    advance
    return .stmt (.node .incDecStmt [← single lhs l.pos, .pos l.pos, .tok l.token])
  else
    return .stmt (.node .exprStmt [← single lhs l.pos])

/-- A simple statement. -/
def simpleStmt (r : Rules) : Reader Tree := do
  match ← r.simple false with
  | .stmt s => return s
  | .range .. => unexpected .simpleStatement

/-! ### Control statements -/

/-- The header of a conditional at `p`: perhaps a statement, and the condition. -/
def ifHeader (r : Rules) (p : Pos) : Reader (Tree × Tree) := do
  let first ← if (← token) == .semicolon then pure .nil else r.simpleStmt
  match ← got? .semicolon with
  | some _ => return (first, ← r.expr)
  | none => return (.nil, ← condition first p)

/-- A conditional statement. -/
def ifStep (r : Rules) : Reader Tree := do
  let keyword ← expect .kwIf
  let (init, cond) ← withLiterals false (r.ifHeader keyword)
  let body ← r.block
  let otherwise ←
    match ← got? .kwElse with
    | none => pure .nil
    | some _ =>
      match ← token with
      | .kwIf => r.ifStmt
      | .lbrace => r.block
      | _ => unexpected .elseBranch
  return .node .ifStmt [.pos keyword, init, cond, body, otherwise]

/-- The header of a switch at `p`: perhaps a statement, and perhaps the value to switch on. -/
def switchHeader (r : Rules) (p : Pos) : Reader (Tree × Tree) := do
  let first ←
    match ← token with
    | .lbrace | .semicolon => pure .nil
    | _ => r.simpleStmt
  match ← got? .semicolon with
  | some _ =>
    if (← token) == .lbrace then return (first, .nil)
    else return (first, ← condition (← r.simpleStmt) p)
  | none =>
    if first.isNil then return (.nil, .nil) else return (.nil, ← condition first p)

/-- Statements up to a closing brace, the next clause or the end of the text. -/
def stmts (r : Rules) : Reader (List Tree) :=
  iterate [] fun stmts => do
    match ← token with
    | .semicolon =>
      advance
      return .inl stmts
    | .rbrace | .kwCase | .kwDefault | .eof => return .inr stmts
    | _ =>
      let s ← r.stmt
      endStatement
      return .inl (stmts ++ [s])

/-- A clause of a switch. -/
def clause (r : Rules) : Reader Tree := do
  let l ← current
  advance
  let exprs ← if l.token == .kwCase then r.exprList else pure []
  let colon ← expect .colon
  let body ← r.stmts
  return .node .caseClause [.pos l.pos, .tok l.token, .list exprs, .pos colon, .list body]

/-- A switch. -/
def switchStmt (r : Rules) : Reader Tree := do
  let keyword ← expect .kwSwitch
  let (init, tag) ← withLiterals false (r.switchHeader keyword)
  let lbrace ← expect .lbrace
  let clauses ← iterate [] fun cs => do
    match ← token with
    | .kwCase | .kwDefault => return .inl (cs ++ [← r.clause])
    | .semicolon =>
      advance
      return .inl cs
    | _ =>
      if ← atDots then
        let d ← dots
        endStatement
        return .inl (cs ++ [d])
      else
        return .inr cs
  let rbrace ← expect .rbrace
  let body := Tree.node .blockStmt [.pos lbrace, .list clauses, .pos rbrace]
  return .node .switchStmt [.pos keyword, init, tag, body]

/-- The header of a loop: three clauses, any of which may be missing, or a range. -/
inductive LoopHeader where
  | clauses (init cond post : Tree)
  | range (targets : List Tree) (tokPos : Pos) (tok : Token) (range : Pos) (x : Tree)

/-- The three clauses of a loop behind its first statement. -/
def loopClauses (r : Rules) (init : Tree) : Reader LoopHeader := do
  match ← got? .semicolon with
  | none => return .clauses .nil (← condition init (← position)) .nil
  | some _ =>
    let cond ← if (← token) == .semicolon then pure .nil else r.expr
    let _ ← expect .semicolon
    let post ← if (← token) == .lbrace then pure .nil else r.simpleStmt
    return .clauses init cond post

/-- The header of a loop.  A lone wildcard stands for any header. -/
def loopHeader (r : Rules) : Reader LoopHeader := do
  match ← token with
  | .lbrace => return .clauses .nil .nil .nil
  | .semicolon => r.loopClauses .nil
  | _ =>
    if (← atDots) && (← following) == .lbrace then
      return .clauses .nil (← dots) .nil
    match ← r.simple true with
    | .range targets tokPos tok range x => return .range targets tokPos tok range x
    | .stmt s => r.loopClauses s

/-- A loop. -/
def forStmt (r : Rules) : Reader Tree := do
  let keyword ← expect .kwFor
  let header ← withLiterals false r.loopHeader
  let body ← r.block
  match header with
  | .clauses init cond post => return .node .forStmt [.pos keyword, init, cond, post, body]
  | .range targets tokPos tok range x =>
    return .node .rangeStmt
      [.pos keyword, targets[0]?.getD .nil, targets[1]?.getD .nil, .pos tokPos, .tok tok,
        .pos range, x, body]

/-! ### Statements -/

/-- The results of a return, if there are any. -/
def returnResults (r : Rules) : Reader (List Tree) := do
  match ← token with
  | .semicolon | .rbrace | .eof => return []
  | _ => r.exprList

/-- A jump, which may name a label. -/
def branchStmt : Reader Tree := do
  let l ← current
  advance
  let label ← if (← token) == .ident && l.token != .kwFallthrough then ident else pure .nil
  return .node .branchStmt [.pos l.pos, .tok l.token, label]

/-- A block. -/
def blockStep (r : Rules) : Reader Tree := do
  let lbrace ← expect .lbrace
  let stmts ← r.stmts
  let rbrace ← expect .rbrace
  return .node .blockStmt [.pos lbrace, .list stmts, .pos rbrace]

/-- A statement, without its end. -/
def stmtStep (r : Rules) : Reader Tree := do
  match ← token with
  | .kwVar | .kwConst | .kwType => return .node .declStmt [← r.declaration .nil]
  | .kwGo =>
    let p ← take
    return .node .goStmt [.pos p, ← r.expr]
  | .kwDefer =>
    let p ← take
    return .node .deferStmt [.pos p, ← r.expr]
  | .kwReturn =>
    let p ← take
    return .node .returnStmt [.pos p, .list (← r.returnResults)]
  | .kwBreak | .kwContinue | .kwGoto | .kwFallthrough => branchStmt
  | .lbrace => r.block
  | .kwIf => r.ifStmt
  | .kwSwitch => r.switchStmt
  | .kwFor => r.forStmt
  | _ => if ← atDots then dots else r.simpleStmt

end Graft.Rules
