import Graft.Recipe.Basic

/-! # Imports and the package clause of a file

Before anything is matched, a file has to have the package name and the imports that the pattern
lists (`Recipe.matchHeader?`).  After a replacement the imports are brought into line with the
replacement (`Recipe.updateImports`): an import that only the pattern lists is removed unless its
name is still used, one that both list gets the name the replacement gives it, and one that only the
replacement lists is added.
-/

namespace Graft

/-- An import of a file. -/
structure FileImport where
  /-- The number of the declaration among those of the file. -/
  decl : Nat
  /-- The number of the specification in its declaration. -/
  spec : Nat
  path : String
  /-- The name the import gives. -/
  name : Option String
  namePos : Pos
  span : Span

namespace FileImport

/-- The import that a specification is. -/
def ofSpec? (decl spec : Nat) (t : Tree) : Option FileImport := do
  let n ← t.node?
  let path ← ImportPath.ofSpec? n
  let ident := n.node? .name
  return ⟨decl, spec, path, ident.bind (·.name?), (ident.map Node.start).getD .none, n.span⟩

/-- The imports of a declaration. -/
def ofDecl (decl : Nat) (t : Tree) : List FileImport :=
  match t.node? with
  | some n =>
    if n.isImportDecl then
      (n.list .specs).zipIdx.filterMap fun (spec, i) => ofSpec? decl i spec
    else []
  | none => []

/-- The imports of a file in order. -/
def ofFile (file : Node) : List FileImport :=
  (file.list .decls).zipIdx.flatMap fun (d, i) => ofDecl i d

/-- The first import of a path. -/
def find? (file : Node) (path : String) : Option FileImport := (ofFile file).find? (·.path == path)

/-- Whether a file imports a path. -/
def isPresent (file : Node) (path : String) : Bool := (ofFile file).any (·.path == path)

end FileImport

/-! ### Edits of import lists -/

/-- A file after an edit, and the ranges the edit changed. -/
structure FileEdit where
  file : Node
  marks : List Span

/-- A file with its list of declarations changed; unchanged if it has none. -/
def Node.mapDecls? (file : Node) (f : List Tree → List Tree) : Option Node :=
  match file.get .decls with
  | .list ds => some (file.set .decls (.list (f ds)))
  | _ => none

/-- A declaration with its list of specifications changed. -/
def Tree.mapSpecs (f : List Tree → List Tree) (decl : Tree) : Tree :=
  match decl.node? with
  | some n =>
    match n.get .specs with
    | .list specs => n.set .specs (.list (f specs))
    | _ => decl
  | none => decl

/-- The specifications of a declaration. -/
def Tree.specs (decl : Tree) : List Tree := (decl.node?.map (·.list .specs)).getD []

/-- Removes the first import of a path, and its declaration if nothing else is in it. -/
def removeImport? (file : Node) (path : String) : Option FileEdit := do
  let target ← FileImport.find? file path
  let decl ← (file.list .decls)[target.decl]?
  let rest := decl.mapSpecs (·.eraseIdx target.spec)
  if rest.specs.isEmpty then
    return ⟨← file.mapDecls? (·.eraseIdx target.decl), [target.span, decl.span]⟩
  else
    return ⟨← file.mapDecls? (·.set target.decl rest), [target.span]⟩

/-- The identifier that an import gives as name. -/
def aliasTree : Option String → Tree
  | some name => .ident .none name
  | none => .nil

/-- Gives the first import of a path another name, or none. -/
def renameImport? (file : Node) (path : String) (name : Option String) : Option FileEdit := do
  let target ← FileImport.find? file path
  if target.name == name then none
  else
    let rename (spec : Tree) : Tree :=
      match spec.node? with
      | some n => n.set .name (aliasTree name)
      | none => spec
    return ⟨← file.mapDecls? (·.modify target.decl (Tree.mapSpecs (·.modify target.spec rename))),
      [target.span]⟩

/-- A specification of an import that stands nowhere. -/
def importSpecTree (path : String) (name : Option String) : Tree :=
  .node .importSpec
    [.nil, aliasTree name, .node .basicLit [.pos .none, .tok .string, .str (Quoted.string path)]]

/-- Whether a specification imports a path that comes behind the given one. -/
def importsBehind (path : String) (spec : Tree) : Bool :=
  ((spec.node?.bind ImportPath.ofSpec?).map fun p => decide (path < p)).getD false

/-- Puts a specification before the first one whose path comes behind its own. -/
def insertSpec (path : String) (spec : Tree) (specs : List Tree) : List Tree :=
  let front := specs.takeWhile fun s => !importsBehind path s
  front ++ spec :: specs.drop front.length

/-- Adds an import: to the first declaration of imports, or in one of its own at the front. -/
def addImport (file : Node) (path : String) (name : Option String) : FileEdit :=
  let spec := importSpecTree path name
  let decls := file.list .decls
  let isImport (t : Tree) : Bool := (t.node?.map (·.isImportDecl)).getD false
  match decls.findIdx? isImport with
  | some i =>
    let span := (decls[i]?.map Tree.span).getD .none
    match file.mapDecls? (·.modify i (Tree.mapSpecs (insertSpec path spec))) with
    | some file => ⟨file, [span]⟩
    | none => ⟨file, []⟩
  | none =>
    let anchor := ((file.node? .name).map Node.stop).getD .none
    let first := (decls.head?.map Tree.start).getD .none
    let decl := Tree.node .genDecl
      [.nil, .pos .none, .tok .kwImport, .pos .none, .list [spec], .pos .none]
    match file.mapDecls? (decl :: ·) with
    | some file => ⟨file, [⟨anchor, first⟩]⟩
    | none => ⟨file, []⟩

/-- Whether some selector uses a name as its qualifier. -/
def Node.usesName (file : Node) (name : String) : Bool :=
  file.tree.nodes.any fun n => n.kind == .selectorExpr && (n.node? .x).bind (·.name?) == some name

/-! ### What a recipe asks for -/

/-- Applies an edit, if there is one, and tells whether there was. -/
def FileEdit.applyTo (edit : Option FileEdit) (file : Node) (log : EditLog) :
    Node × EditLog × Bool :=
  match edit with
  | some e => (e.file, log.markAll e.marks, true)
  | none => (file, log, false)

namespace Recipe

/-- Adds what matching one import of the pattern finds out. -/
def matchImport? (imports : List FileImport) (c : Captures) (clause : ImportClause) :
    Option Captures := do
  let found ← imports.find? (·.path == clause.path)
  let name := found.name.getD (ImportPath.packageName clause.path)
  let c ←
    match clause.givenName with
    | .own => if name == ImportPath.packageName clause.path then some c else none
    | .name s => if name == s then some c else none
    | .metavar m =>
      match c.metavar? m with
      | some (value, _) => if value.node?.bind (·.name?) == some name then some c else none
      | none =>
        let ident := Tree.ident found.namePos name
        some (c.bind (.metavar m) (.metavar ident ident.span))
  return c.bind (.importName clause.path) (.name name)

/-- What every match in a file starts from; nothing if the file does not have the package name and
the imports that the pattern lists. -/
def matchHeader? (r : Recipe) (file : Node) : Option Captures := do
  match r.package with
  | some clause => guard ((file.node? .name).bind (·.name?) == some clause.pattern)
  | none => pure ()
  r.matched.foldlM (matchImport? (FileImport.ofFile file)) .empty

/-- The name the replacement gives to an import. -/
def wantedName (c : Captures) (clause : ImportClause) : Option String :=
  match clause.givenName with
  | .own => none
  | .name s => some s
  | .metavar m => (c.metavar? m).bind fun (value, _) => value.node?.bind (·.name?)

/-- Removes an import that only the pattern lists.  It is kept while its name is used, unless
an import about to be added takes the name over. -/
def dropImport (c : Captures) (incoming : List String) (file : Node) (log : EditLog)
    (path : String) :
    Node × EditLog × Bool :=
  let name := (c.importName? path).getD (ImportPath.packageName path)
  if !incoming.contains name && name != "_" && name != "." && file.usesName name then
    (file, log, false)
  else FileEdit.applyTo (removeImport? file path) file log

/-- Sees to an import that the replacement lists. -/
def ensureImport (r : Recipe) (file : Node) (log : EditLog) (path : String) (name : Option String) :
    Node × EditLog × Bool :=
  if r.matched.any (·.path == path) then
    FileEdit.applyTo (renameImport? file path name) file log
  else if FileImport.isPresent file path then (file, log, false)
  else FileEdit.applyTo (some (addImport file path name)) file log

/-- Brings the imports of a file into line with the replacement, and tells whether any changed. -/
def updateImports (r : Recipe) (c : Captures) (file : Node) (log : EditLog) :
    Node × EditLog × Bool :=
  let wanted := r.wanted.map fun clause => (clause.path, wantedName c clause)
  let incoming := (wanted.filter fun (path, _) => !FileImport.isPresent file path).map
    fun (path, name) => name.getD (ImportPath.packageName path)
  let dropped := (r.matched.map (·.path)).filter fun path => !wanted.any (·.1 == path)
  let state := dropped.foldl
    (fun (file, log, touched) path =>
      let (file, log, t) := dropImport c incoming file log path
      (file, log, touched || t))
    (file, log, false)
  wanted.foldl
    (fun (file, log, touched) (path, name) =>
      let (file, log, t) := r.ensureImport file log path name
      (file, log, touched || t))
    state

/-- Gives a file the package name of the replacement, and tells whether it changed. -/
def updatePackage (r : Recipe) (file : Node) (log : EditLog) : Node × EditLog × Bool :=
  match r.package.bind (·.template), file.node? .name with
  | some name, some old =>
    if old.name? == some name then (file, log, false)
    else (file.set .name (.ident old.start name), log.mark old.span, true)
  | _, _ => (file, log, false)

end Recipe

end Graft
