import Graft.Grammar.Stmt

/-! # Files and fragments

Here the productions are tied into a grammar.  `Rules.upTo n` lets productions call each other to a
depth of `n`; a call that needs more is refused.  Between two calls of the same production a lexeme
is consumed, and at most four productions call one another without consuming one, so the depth that
`Grammar.rules` allows for a text is never used up.

A **file** is what a target consists of.  A **fragment** is one side of a patch: perhaps a package
clause, imports, and a body that is an expression, statements or declarations, whichever reading
succeeds first.
-/

namespace Graft

namespace Rules

/-- The rules that refuse everything. -/
def stuck : Rules :=
  let refuse : Reader Tree := do Reader.refuse (← Reader.position) .tooDeep
  { type := refuse, unary := refuse, binary := fun _ => refuse, composite := fun _ => refuse,
    block := refuse, ifStmt := refuse, stmt := refuse }

/-- The productions over given productions. -/
def step (r : Rules) : Rules where
  type := r.typeStep
  unary := r.unaryStep
  binary := r.binaryStep
  composite := r.compositeStep
  block := r.blockStep
  ifStmt := r.ifStep
  stmt := r.stmtStep

/-- The productions with calls nested to a depth of at most `n`. -/
def upTo : Nat → Rules
  | 0 => stuck
  | n + 1 => (upTo n).step

open Reader

/-- A declaration of constants, variables, types or imports with its documentation. -/
def genDecl (r : Rules) : Reader Tree := do
  let decl ← r.declaration (← docFor (← position))
  endStatement
  return decl

/-- A function or method. -/
def funcDecl (r : Rules) : Reader Tree := do
  let doc ← docFor (← position)
  let func ← expect .kwFunc
  let recv ← if (← token) == .lparen then r.params else pure .nil
  let name ← ident
  let (params, results) ← r.signature
  let body ← if (← token) == .lbrace then r.block else pure .nil
  endStatement
  let type := Tree.node .funcType [.pos .none, params, results]
  return .node .funcDecl [doc, .pos func, recv, name, type, body]

/-- A declaration at the top of a file. -/
def decl (r : Rules) : Reader Tree := do
  match ← token with
  | .kwConst | .kwVar | .kwType | .kwImport => r.genDecl
  | .kwFunc => r.funcDecl
  | _ =>
    if ← atDots then
      let d ← dots
      endStatement
      return d
    else
      unexpected .declaration

/-- Declarations as long as `go` says that one follows, added to `ds`. -/
def declsWhile (r : Rules) (go : Token → Bool) (decl : Rules → Reader Tree) (ds : List Tree) :
    Reader (List Tree) :=
  iterate ds fun ds => do
    if go (← token) then return .inl (ds ++ [← decl r]) else return .inr ds

/-- A file: the package clause, imports and declarations. -/
def file (r : Rules) : Reader Node := do
  let doc ← docFor (← position)
  let package ← expect .kwPackage
  let name ← ident
  endStatement
  let imports ← r.declsWhile (· == .kwImport) genDecl []
  let decls ← r.declsWhile (· != .eof) decl imports
  let comments := (← read).groups.map (·.tree)
  return ⟨.file, [doc, .pos package, name, .list decls, .list comments]⟩

end Rules

/-- What the body of a fragment is. -/
inductive Body where
  | empty
  | expr (x : Tree)
  | stmts (items : List Tree)
  | decls (items : List Tree)

/-- One side of a patch. -/
structure Fragment where
  /-- Where the package keyword stands, and the name behind it. -/
  package : Option (Pos × Tree)
  imports : List Tree
  body : Body

namespace Rules

open Reader

/-- A body that is one expression. -/
def exprBody (r : Rules) : Reader Body := do
  let x ← r.expr
  skipSemicolons
  if (← token) == .eof then return .expr x else unexpected .expressionEnd

/-- A body of statements. -/
def stmtsBody (r : Rules) : Reader Body := do
  let items ← r.stmts
  if (← token) == .eof then return .stmts items else unexpected .statement

/-- A declaration and the semicolons behind it. -/
def declThenSemicolons (r : Rules) : Reader Tree := do
  let d ← r.decl
  skipSemicolons
  return d

/-- A body of declarations. -/
def declsBody (r : Rules) : Reader Body := do
  return .decls (← r.declsWhile (· != .eof) declThenSemicolons [])

/-- The first of some readings that succeeds.  When none does, the refusal that stands furthest to
the right decides, and of several there the first. -/
def firstOf {α : Type} (worst : Option ParseError) : List (Reader α) → Reader α
  | [] =>
    match worst with
    | some e => throw e
    | none => unexpected .statement
  | r :: rs => fun ctx cursor =>
    match r ctx cursor with
    | .ok result => .ok result
    | .error e =>
      let worst :=
        match worst with
        | some w => if w.pos < e.pos then e else w
        | none => e
      firstOf (some worst) rs ctx cursor

/-- The body of a fragment. -/
def body (r : Rules) : Reader Body := do
  let t ← token
  if t == .eof then return .empty
  let next ← following
  if t == .kwType || (t == .kwFunc && (next == .ident || next == .lparen)) then
    firstOf none [r.declsBody, r.exprBody, r.stmtsBody]
  else
    firstOf none [r.exprBody, r.stmtsBody, r.declsBody]

/-- The package clause of a fragment. -/
def packageClause : Reader (Option (Pos × Tree)) := do
  match ← got? .kwPackage with
  | none => return none
  | some p =>
    let name ← ident
    endStatement
    return some (p, name)

/-- An import declaration and the semicolons behind it. -/
def importThenSemicolons (r : Rules) : Reader Tree := do
  let d ← r.genDecl
  skipSemicolons
  return d

/-- A fragment. -/
def fragment (r : Rules) : Reader Fragment := do
  skipSemicolons
  let package ← packageClause
  skipSemicolons
  let imports ← r.declsWhile (· == .kwImport) importThenSemicolons []
  return ⟨package, imports, ← r.body⟩

end Rules

namespace Grammar

/-- The rules with calls nested as deeply as a text of `n` lexemes can ask for. -/
def rules (n : Nat) : Rules := Rules.upTo (4 * n + 4)

/-- Reads a text with the given production. -/
def run {α : Type} (production : Rules → Reader α) (d : Dialect) (text : List Char) :
    Except ParseError α := do
  let scan ← Scan.ofText d text
  let lines := LineTable.ofText text
  let context : Context := ⟨d, lines, CommentGroup.group lines scan.comments, true⟩
  let (a, _) ← production (rules scan.lexemes.length) context ⟨scan.lexemes, none⟩
  return a

end Grammar

/-- Reads a file. -/
def parseFile (d : Dialect) (text : List Char) : Except ParseError Node :=
  Grammar.run Rules.file d text

/-- Reads a fragment. -/
def parseFragment (d : Dialect) (text : List Char) : Except ParseError Fragment :=
  Grammar.run Rules.fragment d text

namespace Body

/-- The value of a body: nothing, the expression, a lone item or a list of several. -/
def value : Body → Tree
  | empty => .nil
  | expr x => x
  | stmts [t] | decls [t] => t
  | stmts ts | decls ts => .list ts

end Body

end Graft
