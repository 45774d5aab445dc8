import Graft.Change.EditLog
import Graft.Match.Template
import Graft.Recipe.ImportPath

/-! # Recipes

A recipe is a compiled patch: what to look for, what to build, and what to do with imports and the
package clause.

An expression recipe looks at single expressions.  A window recipe looks at a stretch of the
statements of a block or clause, or of the declarations of a file; its captures hold the container
around the stretch, whose list ends where the stretch begins, and the template rebuilds what
follows.
-/

namespace Graft

/-- What a window recipe replaces. -/
inductive Level where
  | stmts
  | decls
  deriving DecidableEq

/-- The list in which a kind of container holds the items of a level. -/
def Level.field? : Level → Kind → Option Label
  | stmts, .blockStmt => some .list
  | stmts, .caseClause => some .body
  | decls, .file => some .decls
  | _, _ => none

/-- The name an import gives. -/
inductive Alias where
  /-- None: the package is used by its own name. -/
  | own
  | name (s : String)
  /-- The value of a metavariable. -/
  | metavar (name : String)
  deriving DecidableEq

/-- An import that a patch lists. -/
structure ImportClause where
  path : String
  givenName : Alias
  deriving DecidableEq

/-- The package clause of a patch. -/
structure PackageClause where
  /-- The name the file has to have. -/
  pattern : String
  /-- The name the file gets, if it is given. -/
  template : Option String

/-- What a recipe replaces. -/
inductive RecipeBody where
  /-- Nothing but imports or the package clause. -/
  | none
  | expr (pattern : Pattern) (template : Template)
  | window (level : Level) (pattern : Pattern) (template : Template)

/-- A compiled patch. -/
structure Recipe where
  name : Option String
  body : RecipeBody
  /-- The imports a file has to have. -/
  matched : List ImportClause
  /-- The imports a file has to have afterwards. -/
  wanted : List ImportClause
  package : Option PackageClause

/-- The level of a window recipe. -/
def Recipe.level? (r : Recipe) : Option Level :=
  match r.body with
  | .window level _ _ => some level
  | _ => none

/-! ### Matching -/

/-- Matches the stretch of a container's list from the given element on. -/
def matchWindow? (n : Node) (l : Label) (offset : Nat) (pattern : Pattern) (base : Captures) :
    Option Captures :=
  let all := n.list l
  if all.length < offset then none
  else
    let items := all.drop offset
    (pattern.matchItems? items base).map fun c =>
      let site : Span :=
        match items.head?, items.getLast? with
        | some first, some last => ⟨first.start, last.stop⟩
        | _, _ => .none
      (c.bind .container (.captured (n.set l (.list (all.take offset))) n.span)).bind
        .site (.span site)

/-- Whether a declaration declares imports. -/
def Node.isImportDecl (n : Node) : Bool := n.kind == .genDecl && n.tok? .tok == some .kwImport

/-- Whether code is looked for in a field: comments are no code. -/
def Slot.holdsCode : Slot → Bool
  | .node c | .list c => c != .commentGroup
  | _ => false

mutual

/-- The nodes in a value that count as code, parents first.  The inside of import declarations does
not. -/
def Tree.codeNodes : Tree → List Tree
  | .list ts => Tree.codeNodesAll ts
  | .node k fs =>
    .node k fs :: (if Node.isImportDecl ⟨k, fs⟩ then [] else Tree.codeFields k.fields fs)
  | _ => []

/-- The nodes in a list of values that count as code. -/
def Tree.codeNodesAll : List Tree → List Tree
  | [] => []
  | t :: ts => t.codeNodes ++ Tree.codeNodesAll ts

/-- The nodes in the fields of a node that count as code. -/
def Tree.codeFields : List Field → List Tree → List Tree
  | f :: fs, t :: ts => (if f.slot.holdsCode then t.codeNodes else []) ++ Tree.codeFields fs ts
  | _, _ => []

end

namespace Recipe

/-- Matches one candidate: an expression, or a container for a window recipe. -/
def matchNode? (r : Recipe) (t : Tree) : Option Captures :=
  match r.body with
  | .none => none
  | .expr pattern _ => (pattern.match? t .empty).map (·.bind .site (.span t.span))
  | .window level pattern _ => do
    let n ← t.node?
    let l ← level.field? n.kind
    matchWindow? n l 0 pattern .empty

/-! ### Replacing -/

/-- Builds the replacement of a match. -/
def build (r : Recipe) (c : Captures) : Builder Tree :=
  match r.body with
  | .none => pure .nil
  | .expr _ template => template.build c
  | .window level _ template => do
    let n ← Builder.require ((c.captured? .container).bind (·.1.node?)) .container .none
    let l ← Builder.require (level.field? n.kind) .container .none
    let built ← template.build c
    let items :=
      match built with
      | .list ts => ts
      | t => [t]
    let n :=
      match n.get l with
      | .list front => n.set l (.list (front ++ items))
      | _ => n
    let fits := (n.kind.fields.find? (·.label == l)).all fun f => f.slot.accepts (n.get l)
    if fits then return n else throw (.misfit (.inContainer n.kind))

/-- Builds the replacement of a match for a slot, and accounts for it in the log.  Nothing is
answered when the replacement spells the same code as `old`; the source is left alone then.  Marks
of a replacement that fails, or changes nothing, are forgotten. -/
def replaceInto (r : Recipe) (c : Captures) (log : EditLog) (slot : Option Slot)
    (old : Option Node) :
    Except BuildError (Option Tree) × EditLog :=
  let site := (c.span? .site).getD .none
  match (r.build c).run ⟨site.start, []⟩ with
  | .error e => (.error e, log.discard)
  | .ok (value, draft) =>
    let fits := slot.all fun s => s.accepts value
    if !fits then (.error (.misfit (.atSite value.kind? site.start)), log.discard)
    else
      let isSame :=
        match old, value.node? with
        | some old, some new => new.tree.sameCode old
        | _, _ => false
      if isSame then (.ok none, log.discard)
      else (.ok (some value), (draft.spared.foldl EditLog.spare (log.mark site)).commit)

/-- Builds the replacement of a match, and accounts for it in the log. -/
def replace (r : Recipe) (c : Captures) (log : EditLog) : Except BuildError Tree × EditLog :=
  let (result, log) := r.replaceInto c log none none
  (result.map (·.getD .nil), log)

end Recipe

end Graft
