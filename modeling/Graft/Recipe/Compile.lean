import Graft.Patch.Pairing
import Graft.Recipe.Basic

/-! # From patches to recipes

The pattern side of a patch becomes a pattern, the replacement side a template.  Before the
structural case, these forms are recognised: identifiers that are declared metavariables, `(...)`
for any field list, `for ...` for any loop header, and wildcards in lists.  A wildcard anywhere else
is an error.

A patch of statements or declarations matches a stretch of a container.  Unless its pattern begins
(ends) with a wildcard, whatever stands before (behind) the stretch is captured as a run of its own,
and the template puts it back.
-/

namespace Graft

/-! ### Wildcards -/

/-- Where the wildcard stands that a list element is: the wildcard itself, or a field that has no
name and a wildcard for its type. -/
def Tree.wildcard? (t : Tree) : Option Pos :=
  match t.node? with
  | none => none
  | some n =>
    if n.kind = .dots then some n.start
    else if n.kind = .field && (n.list .names).isEmpty then
      (n.node? .type).bind fun type => if type.kind = .dots then some type.start else none
    else none

/-- Where the wildcard of a field list `(...)` stands. -/
def Node.elidedFields? (n : Node) : Option Pos :=
  match n.kind, n.list .list with
  | .fieldList, [only] => only.wildcard?
  | _, _ => none

/-- Where the wildcard of a loop header `for ...` stands. -/
def Node.elidedHeader? (n : Node) : Option Pos :=
  if n.kind = .forStmt && (n.get .init).isNil && (n.get .post).isNil then
    (n.node? .cond).bind fun cond => if cond.kind = .dots then some cond.start else none
  else none

/-- The kinds of the declared metavariables. -/
abbrev MetaTable := String → Option MetaKind

/-- The metavariable that a node is. -/
def Node.metavar? (metas : MetaTable) (n : Node) : Option (String × MetaKind) :=
  n.name?.bind fun name => (metas name).map (name, ·)

mutual

/-- Where wildcards stand in a value that may not stand there. -/
def Tree.misplacedDots (metas : MetaTable) : Tree → List Pos
  | .list ts => Tree.misplacedDotsItems metas ts
  | .node k fs =>
    let n : Node := ⟨k, fs⟩
    let inFields := Tree.misplacedDotsFields metas fs
    if (n.metavar? metas).isSome || n.elidedFields?.isSome then []
    else if n.elidedHeader?.isSome then
      (k.indexOf? .body).elim [] fun i => inFields[i]?.getD []
    else if k = .dots then [n.start]
    else inFields.flatten
  | _ => []

/-- Where misplaced wildcards stand, for each field of a node. -/
def Tree.misplacedDotsFields (metas : MetaTable) : List Tree → List (List Pos)
  | [] => []
  | t :: ts => t.misplacedDots metas :: Tree.misplacedDotsFields metas ts

/-- Where misplaced wildcards stand in the elements of a list; an element may be a wildcard
itself. -/
def Tree.misplacedDotsItems (metas : MetaTable) : List Tree → List Pos
  | [] => []
  | t :: ts =>
    (if t.wildcard?.isSome then [] else t.misplacedDots metas) ++ Tree.misplacedDotsItems metas ts

end

/-! ### Patterns -/

/-- An element of a list pattern: a wildcard at a place, or a pattern. -/
inductive PatternItem where
  | wildcard (p : Pos)
  | pattern (p : Pattern)

/-- Cuts the elements of a list pattern at the wildcards. -/
def PatternItem.cut : List PatternItem → List Pattern × List (Key × List Pattern)
  | [] => ([], [])
  | .pattern p :: items =>
    let (front, sections) := cut items
    (p :: front, sections)
  | .wildcard p :: items =>
    let (front, sections) := cut items
    ([], (.dots p, front) :: sections)

namespace Pattern

/-- The pattern of the comment above a node. -/
def ofDoc (n : Node) : Pattern :=
  match n.docKey? with
  | some p => doc p
  | none => any

mutual

/-- The pattern of a tree. -/
def ofTree (metas : MetaTable) : Tree → Pattern
  | .nil => nil
  | .pos p => pos p
  | .str s => str s
  | .tok t => tok t
  | .list ts =>
    match PatternItem.cut (ofItems metas ts) with
    | (front, []) => list front
    | (front, sections) => runs front sections
  | .node k fs =>
    let n : Node := ⟨k, fs⟩
    let fields := ofFields metas (ofDoc n) k.fields fs
    match n.metavar? metas with
    | some (name, kind) => metavar name kind
    | none =>
      match n.elidedFields? with
      | some dots => fieldList dots
      | none =>
        match n.elidedHeader? with
        | some dots => loop dots ((k.indexOf? .body).elim nil fun i => fields[i]?.getD nil)
        | none => if k = .dots then any else node k fields

/-- The patterns of the elements of a list. -/
def ofItems (metas : MetaTable) : List Tree → List PatternItem
  | [] => []
  | t :: ts =>
    (match t.wildcard? with
      | some p => .wildcard p
      | none => .pattern (ofTree metas t)) :: ofItems metas ts

/-- The patterns of the fields of a node, where `doc` is the pattern of the comment above it. -/
def ofFields (metas : MetaTable) (doc : Pattern) : List Field → List Tree → List Pattern
  | f :: fs, t :: ts =>
    (if f.slot = .doc then doc else ofTree metas t) :: ofFields metas doc fs ts
  | _, _ => []

end

/-- The pattern of a stretch of a container. -/
def ofWindow (metas : MetaTable) (ts : List Tree) (head tail : Bool) : Pattern :=
  let (front, sections) := PatternItem.cut (ofItems metas ts)
  let behind := if tail then [(Key.tail, [])] else []
  if head then runs [] ((.head, front) :: sections ++ behind) else runs front (sections ++ behind)

end Pattern

/-! ### Templates -/

/-- Which place of the pattern a place of the template stands for. -/
def Pairing.counterpart? (a : Pairing) (p : Pos) : Option Pos :=
  if p.isValid then a.get? p else none

namespace Template

mutual

/-- The template of a tree. -/
def ofTree (metas : MetaTable) (a : Pairing) : Tree → Template
  | .nil => nil
  | .pos p => pos p (a.counterpart? p)
  | .str s => str s
  | .tok t => tok t
  | .list ts => list (ofItems metas a ts)
  | .node k fs =>
    let n : Node := ⟨k, fs⟩
    let fields := ofFields metas a (n.docKey?.bind a.counterpart?) k.fields fs
    match n.metavar? metas with
    | some (name, _) => metavar name n.start
    | none =>
      match n.elidedFields? with
      | some dots => fieldList dots (a.counterpart? dots)
      | none =>
        match n.elidedHeader? with
        | some dots =>
          loop dots (a.counterpart? dots) ((k.indexOf? .body).elim nil fun i => fields[i]?.getD nil)
        | none => if k = .dots then nil else node k fields

/-- The templates of the elements of a list. -/
def ofItems (metas : MetaTable) (a : Pairing) : List Tree → List TemplateItem
  | [] => []
  | t :: ts =>
    (match t.wildcard? with
      | some p => .splice ((a.counterpart? p).map Key.dots) p
      | none => .one (ofTree metas a t)) :: ofItems metas a ts

/-- The templates of the fields of a node, where `key` is the counterpart of the comment above
it. -/
def ofFields (metas : MetaTable) (a : Pairing) (key : Option Pos) :
    List Field → List Tree → List Template
  | f :: fs, t :: ts =>
    (if f.slot = .doc then doc key (ofTree metas a t) else ofTree metas a t)
      :: ofFields metas a key fs ts
  | _, _ => []

end

/-- The template of a stretch of a container. -/
def ofWindow (metas : MetaTable) (a : Pairing) (ts : List Tree) (head tail : Bool) : Template :=
  let front := if head then [TemplateItem.splice (some .head) .none] else []
  let behind := if tail then [TemplateItem.splice (some .tail) .none] else []
  list (front ++ ofItems metas a ts ++ behind)

end Template

/-! ### Recipes -/

/-- A result together with the problems met on the way. -/
structure Checked (α : Type) where
  value : α
  errors : List PatchError

namespace Patch

/-- The kinds of the metavariables of a patch. -/
def metaTable (p : Patch) : MetaTable := fun name => (p.metavar? name).map (·.kind)

/-- A fault at a place of a side; at the header if the place is nowhere. -/
def faultAt (p : Patch) (side : Side) (at_ : Pos) (fault : PatchFault) : PatchError :=
  let place := side.toPatch at_
  if place.isValid then .at place fault else ⟨fault, p.header⟩

/-- The name in a package clause. -/
def packageName? (f : Fragment) : Option String :=
  f.package.bind fun (_, t) => t.node?.bind (·.name?)

/-- The package clause of a patch.  The replacement may have one only if the pattern has. -/
def packageClause (p : Patch) : Checked (Option PackageClause) :=
  match packageName? p.minus.fragment, packageName? p.plus.fragment with
  | some pattern, template => ⟨some ⟨pattern, template⟩, []⟩
  | none, some _ =>
    let place := (p.plus.fragment.package.map (·.1)).getD .none
    ⟨none, [p.faultAt p.plus place .packageOnlyInTemplate]⟩
  | none, none => ⟨none, []⟩

/-- The import that a specification lists. -/
def importClause (p : Patch) (side : Side) (spec : Tree) : Except PatchError ImportClause :=
  match spec.node? with
  | none => .error (p.faultAt side .none .misplacedDots)
  | some n =>
    if n.kind = .importSpec then
      match ImportPath.ofSpec? n with
      | none => .error (p.faultAt side n.start .badImportPath)
      | some path =>
        .ok ⟨path,
          match n.node? .name with
          | none => .own
          | some ident =>
            match ident.metavar? p.metaTable with
            | some (name, _) => .metavar name
            | none => .name (ident.name?.getD "")⟩
    else .error (p.faultAt side n.start .misplacedDots)

/-- The imports a side lists. -/
def importClauses (p : Patch) (side : Side) : Checked (List ImportClause) :=
  let specs := side.fragment.imports.flatMap fun d => (d.node?.map (·.list .specs)).getD []
  let read := specs.map (p.importClause side)
  ⟨read.filterMap fun
      | .ok clause => some clause
      | .error _ => none,
    read.filterMap fun
      | .ok _ => none
      | .error e => some e⟩

/-- The metavariables that occur in the imports and the body of a side, and where. -/
def metavarsIn (p : Patch) (side : Side) : List (String × Pos) :=
  let trees := { side.fragment with package := none }.trees
  (trees.flatMap Tree.nodes).filterMap fun n =>
    (n.metavar? p.metaTable).map fun (name, _) => (name, n.start)

/-- The metavariables that the replacement uses and the pattern never binds. -/
def unboundErrors (p : Patch) : List PatchError :=
  let bound := (p.metavarsIn p.minus).map (·.1)
  ((p.metavarsIn p.plus).filter fun (name, _) => !bound.contains name).map fun (name, at_) =>
    p.faultAt p.plus at_ (.unboundMetavar name)

/-- The misplaced wildcards of both sides. -/
def dotsErrors (p : Patch) (minus plus : List Pos) : List PatchError :=
  minus.map (p.faultAt p.minus · .misplacedDots) ++ plus.map (p.faultAt p.plus · .misplacedDots)

/-- The body of an expression recipe. -/
def exprBody (p : Patch) (minus plus : Tree) : Checked RecipeBody :=
  ⟨.expr (.ofTree p.metaTable minus) (.ofTree p.metaTable (.ofPatch p) plus),
    p.dotsErrors (minus.misplacedDots p.metaTable) (plus.misplacedDots p.metaTable)⟩

/-- The body of a window recipe. -/
def windowBody (p : Patch) (level : Level) (minus plus : List Tree) : Checked RecipeBody :=
  let isWildcard (t : Option Tree) : Bool := (t.bind Tree.wildcard?).isSome
  let head := !isWildcard minus.head?
  let tail := !isWildcard minus.getLast?
  ⟨.window level (.ofWindow p.metaTable minus head tail)
      (.ofWindow p.metaTable (.ofPatch p) plus head tail),
    p.dotsErrors (Tree.misplacedDotsItems p.metaTable minus)
      (Tree.misplacedDotsItems p.metaTable plus)⟩

/-- What a body is. -/
def sortOf : Body → BodySort
  | .empty => .nothing
  | .expr _ => .expression
  | .stmts _ => .statements
  | .decls _ => .declarations

/-- Where a body begins. -/
def bodyStart : Body → Pos
  | .empty => .none
  | .expr x => x.start
  | .stmts ts | .decls ts => (ts.head?.map Tree.start).getD .none

/-- An expression as a statement. -/
def asStmt (x : Tree) : Tree := .node .exprStmt [x]

/-- The body of the recipe of a patch.  An expression beside statements, or beside nothing, is a
statement. -/
def recipeBody (p : Patch) : Checked RecipeBody :=
  let minus := p.minus.fragment.body
  let plus := p.plus.fragment.body
  let fault (f : PatchFault) : Checked RecipeBody := ⟨.none, [p.faultAt p.plus (bodyStart plus) f]⟩
  match minus, plus with
  | .empty, .empty => ⟨.none, []⟩
  | .expr x, .expr y => p.exprBody x y
  | .expr x, .stmts ys => p.windowBody .stmts [asStmt x] ys
  | .expr x, .empty => p.windowBody .stmts [asStmt x] []
  | .stmts xs, .expr y => p.windowBody .stmts xs [asStmt y]
  | .stmts xs, .stmts ys => p.windowBody .stmts xs ys
  | .stmts xs, .empty => p.windowBody .stmts xs []
  | .decls xs, .decls ys => p.windowBody .decls xs ys
  | .decls xs, .empty => p.windowBody .decls xs []
  | .empty, _ => fault .nothingToReplace
  | _, _ => fault (.mismatched (sortOf minus) (sortOf plus))

/-- Whether the pattern side is empty. -/
def isPatternEmpty (p : Patch) : Bool :=
  let f := p.minus.fragment
  f.package.isNone && f.imports.isEmpty && sortOf f.body == .nothing

/-- Compiles a patch: the recipe, or all that is wrong with the patch. -/
def compile (p : Patch) : Except (List PatchError) Recipe :=
  if p.isPatternEmpty then .error [⟨.emptyPattern, p.header⟩]
  else
    let package := p.packageClause
    let matched := p.importClauses p.minus
    let wanted := p.importClauses p.plus
    let body := p.recipeBody
    let errors := package.errors ++ matched.errors ++ wanted.errors ++
      p.unboundErrors ++ body.errors
    if errors.isEmpty then .ok ⟨p.name, body.value, matched.value, wanted.value, package.value⟩
    else .error errors

end Patch

/-- Reads and compiles a patch file: the recipes in order, or all that is wrong with the file. -/
def compilePatchFile (text : List Char) : Except (List PatchError) (List Recipe) :=
  let file := PatchFile.read text
  let compiled := file.patches.map Patch.compile
  let errors := file.errors ++ compiled.flatMap fun
    | .ok _ => []
    | .error es => es
  if errors.isEmpty then
    .ok (compiled.filterMap fun
      | .ok r => some r
      | .error _ => none)
  else .error errors

end Graft
