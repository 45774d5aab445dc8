import Graft.Proofs.Recipe.Conforming
import Graft.Proofs.Recipe.Sites

/-! # The imports of a file as a list

The edits of a header find an import by the numbers of its declaration and specification, and change
the tree there.  On the list of specifications (`Node.importSpecs`) they come to one splice
(`Spliced`): the first one of a path is taken out (`importSpecs_removeImport?`) or gets another name
(`importSpecs_renameImport?`), or one is put in somewhere (`importSpecs_addImport`).  What the
specifications say is the list of imports (`Node.imports`), and a splice there as well.  None of the
three brings in a selector (`Recipe.editsKeep_unused`).
-/

namespace Graft

/-! ### Splices -/

/-- Whether one list comes from another by putting `into` where `out` stands. -/
def Spliced {α : Type} (out into before after : List α) : Prop :=
  ∃ xs ys, before = xs ++ out ++ ys ∧ after = xs ++ into ++ ys

namespace Spliced

variable {α β : Type} {out into before after : List α}

theorem find?_eq (h : Spliced out into before after) {p : α → Bool} (hout : ∀ a ∈ out, p a = false)
    (hinto : ∀ a ∈ into, p a = false) : after.find? p = before.find? p := by
  obtain ⟨xs, ys, rfl, rfl⟩ := h
  have hnone {l : List α} (hl : ∀ a ∈ l, p a = false) : l.find? p = none :=
    List.find?_eq_none.mpr fun a ha => by simp [hl a ha]
  simp only [List.find?_append, hnone hout, hnone hinto]

theorem symm (h : Spliced out into before after) : Spliced into out after before := by
  obtain ⟨xs, ys, hbefore, hafter⟩ := h
  exact ⟨xs, ys, hafter, hbefore⟩

theorem mem_or_mem (h : Spliced out into before after) {a : α} (ha : a ∈ before) :
    a ∈ out ∨ a ∈ after := by
  obtain ⟨xs, ys, rfl, rfl⟩ := h
  simp only [List.mem_append] at ha ⊢
  tauto

theorem mem_of_mem_into (h : Spliced out into before after) {a : α} (ha : a ∈ into) :
    a ∈ after := by
  obtain ⟨xs, ys, rfl, rfl⟩ := h
  exact List.mem_append_left _ (List.mem_append_right _ ha)

theorem filterMap (h : Spliced out into before after) (f : α → Option β) :
    Spliced (out.filterMap f) (into.filterMap f) (before.filterMap f) (after.filterMap f) := by
  obtain ⟨xs, ys, rfl, rfl⟩ := h
  exact ⟨xs.filterMap f, ys.filterMap f, by simp only [List.filterMap_append],
    by simp only [List.filterMap_append]⟩

theorem map (h : Spliced out into before after) (f : α → β) :
    Spliced (out.map f) (into.map f) (before.map f) (after.map f) := by
  simp only [← List.filterMap_eq_map]
  exact h.filterMap _

/-- Taking elements out leaves the others in order. -/
theorem sublist (h : Spliced out [] before after) : after.Sublist before := by
  obtain ⟨xs, ys, rfl, rfl⟩ := h
  rw [List.append_nil]
  exact (List.sublist_append_left xs out).append (List.Sublist.refl ys)

/-- A splice in what one element stands for is a splice in what the list stands for. -/
theorem flatMap {a : α} {inside : List α} (h : Spliced [a] inside before after) {f : α → List β}
    {out into : List β} (hf : Spliced out into (f a) (inside.flatMap f)) :
    Spliced out into (before.flatMap f) (after.flatMap f) := by
  obtain ⟨xs, ys, rfl, rfl⟩ := h
  obtain ⟨us, vs, ha, hinside⟩ := hf
  refine ⟨xs.flatMap f ++ us, vs ++ ys.flatMap f, ?_, ?_⟩
  · rw [List.flatMap_append, List.flatMap_append, List.flatMap_singleton, ha]
    simp only [List.append_assoc]
  · rw [List.flatMap_append, List.flatMap_append, hinside]
    simp only [List.append_assoc]

theorem set {l : List α} {i : Nat} {a : α} (h : l[i]? = some a) (b : α) :
    Spliced [a] [b] l (l.set i b) := by
  obtain ⟨hi, rfl⟩ := List.getElem?_eq_some_iff.mp h
  refine ⟨l.take i, l.drop (i + 1), ?_, ?_⟩
  · simp
  · rw [List.set_eq_take_append_cons_drop, if_pos hi, List.append_assoc, List.singleton_append]

theorem modify {l : List α} {i : Nat} {a : α} (h : l[i]? = some a) (f : α → α) :
    Spliced [a] [f a] l (l.modify i f) := by
  obtain ⟨hi, rfl⟩ := List.getElem?_eq_some_iff.mp h
  rw [List.modify_eq_set_getElem?, h]
  exact set h _

theorem eraseIdx {l : List α} {i : Nat} {a : α} (h : l[i]? = some a) :
    Spliced [a] [] l (l.eraseIdx i) := by
  obtain ⟨hi, rfl⟩ := List.getElem?_eq_some_iff.mp h
  refine ⟨l.take i, l.drop (i + 1), ?_, ?_⟩
  · simp
  · rw [List.eraseIdx_eq_take_drop_succ, List.append_nil]

end Spliced

theorem spliced_insertSpec (path : String) (spec : Tree) (specs : List Tree) :
    Spliced [] [spec] specs (insertSpec path spec specs) := by
  let front := specs.takeWhile fun s => !importsBehind path s
  have hfront : front ++ specs.drop front.length = specs :=
    List.prefix_iff_eq_append.mp (List.takeWhile_prefix _)
  refine ⟨front, specs.drop front.length, ?_, ?_⟩
  · rw [List.append_nil, hfront]
  · rw [insertSpec, List.append_assoc, List.singleton_append]

theorem modify_append_cons {α : Type} (xs ys : List α) (a : α) (f : α → α) :
    (xs ++ a :: ys).modify xs.length f = xs ++ f a :: ys := by
  rw [List.modify_eq_take_cons_drop (by simp)]
  simp

/-! ### Imports -/

/-- An import by its path and the name it gives. -/
structure Imported where
  path : String
  name : Option String

/-- The name under which an import is used. -/
def Imported.provided (i : Imported) : String := i.name.getD (ImportPath.packageName i.path)

/-- An import of a file, wherever it stands. -/
def FileImport.imported (i : FileImport) : Imported := ⟨i.path, i.name⟩

/-- The import that a specification is. -/
def Tree.imported? (t : Tree) : Option Imported :=
  t.node?.bind fun n => (ImportPath.ofSpec? n).map fun path =>
  ⟨path, (n.node? .name).bind (·.name?)⟩

/-- The imports of a declaration. -/
def Tree.imports (t : Tree) : List Imported :=
  if t.isImportDecl then t.specs.filterMap Tree.imported? else []

/-- The imports of a file. -/
def Node.imports (file : Node) : List Imported := (file.list .decls).flatMap Tree.imports

/-- The first import of a path. -/
def Node.import? (file : Node) (path : String) : Option Imported :=
  file.imports.find? (·.path == path)

/-- The specifications of imports in a declaration. -/
def Tree.importSpecs (t : Tree) : List Tree := if t.isImportDecl then t.specs else []

/-- The specifications of imports in a file. -/
def Node.importSpecs (file : Node) : List Tree := (file.list .decls).flatMap Tree.importSpecs

/-- Whether a value is the specification of an import of a path. -/
def Tree.importsPath (path : String) (t : Tree) : Bool := t.imported?.any (·.path == path)

/-- The specification of the first import of a path. -/
def Node.importSpec? (file : Node) (path : String) : Option Tree :=
  file.importSpecs.find? (·.importsPath path)

theorem Tree.importSpecs_of_isImportDecl {t : Tree} (h : t.isImportDecl = true) :
    t.importSpecs = t.specs :=
  if_pos h

theorem Tree.imports_eq (t : Tree) : t.imports = t.importSpecs.filterMap Tree.imported? := by
  unfold imports importSpecs
  split <;> rfl

theorem Node.imports_eq (file : Node) :
    file.imports = file.importSpecs.filterMap Tree.imported? := by
  rw [imports, importSpecs, List.filterMap_flatMap]
  exact congrArg (List.flatMap · _) (funext Tree.imports_eq)

theorem Node.imports_congr {file file' : Node} (h : file'.importSpecs = file.importSpecs) :
    file'.imports = file.imports := by
  rw [imports_eq, h, ← imports_eq]

/-- The first import of a path is what its specification says. -/
theorem Node.import?_of_importSpec? {file : Node} {path : String} {s : Tree} {i : Imported}
    (h : file.importSpec? path = some s) (hi : s.imported? = some i) :
    file.import? path = some i := by
  have hsays : (fun t : Tree => t.imported?.any fun i => i.path == path) =
      fun t => t.importsPath path := rfl
  rw [import?, imports_eq, List.find?_filterMap, hsays]
  exact (congrArg (Option.bind · Tree.imported?) h).trans hi

/-- What the specification of an import says. -/
theorem Node.exists_of_importSpec? {file : Node} {path : String} {s : Tree}
    (h : file.importSpec? path = some s) :
    ∃ i, s.imported? = some i ∧ i.path = path := by
  have hpath : s.importsPath path = true := List.find?_some h
  obtain ⟨i, hi, hpath⟩ := (Option.any_eq_true _ _).mp hpath
  exact ⟨i, hi, beq_iff_eq.mp hpath⟩

theorem Node.path_of_import? {file : Node} {path : String} {i : Imported}
    (h : file.import? path = some i) :
    i.path = path := by
  simpa using List.find?_some h

theorem Node.import?_congr {file file' : Node} (h : file'.imports = file.imports) (path : String) :
    file'.import? path = file.import? path := by
  rw [Node.import?, h, Node.import?]

/-- A splice of imports of one path leaves the other paths alone. -/
theorem Spliced.import?_eq {out into : List Imported} {file file' : Node}
    (h : Spliced out into file.imports file'.imports) {path : String}
    (hout : ∀ i ∈ out, i.path = path) (hinto : ∀ i ∈ into, i.path = path) {p : String}
    (hp : p ≠ path) : file'.import? p = file.import? p := by
  refine h.find?_eq (fun i hi => ?_) fun i hi => ?_
  · rw [hout i hi]
    exact beq_eq_false_iff_ne.mpr (Ne.symm hp)
  · rw [hinto i hi]
    exact beq_eq_false_iff_ne.mpr (Ne.symm hp)

/-! ### Entries and their places -/

namespace FileImport

theorem map_ofSpec? (decl spec : Nat) (t : Tree) :
    (ofSpec? decl spec t).map imported = t.imported? := by
  unfold ofSpec? Tree.imported?
  cases t.node? with
  | none => rfl
  | some n =>
    cases hpath : ImportPath.ofSpec? n with
    | none => simp [hpath]
    | some path => simp [hpath, imported]

theorem ofDecl_eq (decl : Nat) (t : Tree) :
    ofDecl decl t = t.importSpecs.zipIdx.filterMap fun (spec, i) => ofSpec? decl i spec := by
  unfold ofDecl Tree.importSpecs Tree.isImportDecl Tree.specs
  cases t.node? with
  | none => rfl
  | some n =>
    dsimp only
    rw [Option.map_some, Option.getD_some]
    split <;> rfl

theorem map_ofDecl (decl : Nat) (t : Tree) : (ofDecl decl t).map imported = t.imports := by
  rw [ofDecl_eq, Tree.imports_eq, ← List.zipIdx_map_fst 0 t.importSpecs, List.filterMap_map,
    List.map_filterMap, List.zipIdx_map_fst]
  exact congrArg (List.filterMap · _) (funext fun (s, i) => map_ofSpec? decl i s)

theorem map_ofFile (file : Node) : (ofFile file).map imported = file.imports := by
  rw [ofFile, Node.imports, List.map_flatMap, ← List.zipIdx_map_fst 0 (file.list .decls),
    List.flatMap_map, List.zipIdx_map_fst]
  exact congrArg (List.flatMap · _) (funext fun (d, i) => map_ofDecl i d)

/-- Looking for a path in a file is looking for it in the list. -/
theorem map_find? (file : Node) (path : String) :
    (find? file path).map imported = file.import? path := by
  rw [Node.import?, ← map_ofFile, List.find?_map]
  rfl

theorem isPresent_eq (file : Node) (path : String) :
    isPresent file path = (file.import? path).isSome := by
  rw [← map_find?, Option.isSome_map, isPresent, find?, List.isSome_find?]

theorem importsPath_eq (path : String) (decl spec : Nat) (t : Tree) :
    t.importsPath path = (ofSpec? decl spec t).any (·.path == path) := by
  rw [Tree.importsPath, ← map_ofSpec? decl spec t, Option.any_map]
  rfl

/-- A declaration without an import of a path. -/
theorem importsPath_of_find? {decl : Nat} {t : Tree} {path : String}
    (h : (ofDecl decl t).find? (·.path == path) = none) :
    ∀ s ∈ t.importSpecs, s.importsPath path = false := by
  intro s hs
  obtain ⟨i, hi⟩ := List.mem_iff_getElem?.mp hs
  rw [importsPath_eq path decl i, Option.any_eq_false]
  intro e he
  rw [ofDecl_eq, List.find?_eq_none] at h
  simpa using h e (List.mem_filterMap.mpr ⟨(s, i), List.mem_zipIdx_iff_getElem?.mpr hi, he⟩)

/-- Where the first import of a path stands: what is before its declaration, and what is before its
specification in there, is of other paths. -/
theorem exists_of_find? {file : Node} {path : String} {target : FileImport}
    (h : find? file path = some target) :
    ∃ ds d ds' ss s ss', file.list .decls = ds ++ d :: ds' ∧ ds.length = target.decl ∧
      d.isImportDecl = true ∧
      d.specs = ss ++ s :: ss' ∧ ss.length = target.spec ∧ s.imported? = some target.imported ∧
      ∀ t ∈ ds.flatMap Tree.importSpecs ++ ss, t.importsPath path = false := by
  rw [find?, ofFile, List.find?_flatMap] at h
  obtain ⟨before, ⟨d, i⟩, behind, hdecls, hfound, hbefore⟩ := List.findSome?_eq_some_iff.mp h
  obtain ⟨ds, rest, hds, rfl, hrest⟩ := List.zipIdx_eq_append_iff.mp hdecls
  obtain ⟨d, ds', rfl, ⟨⟩, -⟩ := List.zipIdx_eq_cons_iff.mp hrest.symm
  dsimp only at hfound
  rw [ofDecl_eq, List.find?_filterMap] at hfound
  obtain ⟨⟨s, j⟩, hfound, hspec⟩ := Option.bind_eq_some_iff.mp hfound
  obtain ⟨-, front, back, hspecs, hfront⟩ := List.find?_eq_some_iff_append.mp hfound
  obtain ⟨ss, rest, hss, rfl, hrest⟩ := List.zipIdx_eq_append_iff.mp hspecs
  obtain ⟨s, ss', rfl, ⟨⟩, -⟩ := List.zipIdx_eq_cons_iff.mp hrest.symm
  have himport : d.isImportDecl = true := by
    by_contra himport
    rw [Tree.importSpecs, if_neg himport] at hss
    simp at hss
  rw [Tree.importSpecs_of_isImportDecl himport] at hss
  obtain ⟨hdecl, hspec'⟩ : target.decl = 0 + ds.length ∧ target.spec = 0 + ss.length := by
    unfold ofSpec? at hspec
    obtain ⟨n, -, hspec⟩ := Option.bind_eq_some_iff.mp hspec
    obtain ⟨p, -, hspec⟩ := Option.bind_eq_some_iff.mp hspec
    cases hspec
    exact ⟨rfl, rfl⟩
  refine ⟨ds, d, ds', ss, s, ss', hds, by omega, himport, hss, by omega, ?_, fun t ht => ?_⟩
  · exact (map_ofSpec? _ _ s).symm.trans (congrArg (Option.map imported) hspec)
  · rcases List.mem_append.mp ht with ht | ht
    · obtain ⟨d', hd', ht⟩ := List.mem_flatMap.mp ht
      obtain ⟨i, hi⟩ := List.mem_iff_getElem?.mp hd'
      exact importsPath_of_find? (hbefore (d', i) (List.mem_zipIdx_iff_getElem?.mpr hi)) t ht
    · obtain ⟨i, hi⟩ := List.mem_iff_getElem?.mp ht
      rw [importsPath_eq path (0 + ds.length) i]
      simpa using hfront (t, i) (List.mem_zipIdx_iff_getElem?.mpr hi)

end FileImport

/-! ### The form of import declarations -/

theorem Node.IsFile.exists_fields {file : Node} (h : file.IsFile) :
    ∃ doc package name ds comments, file = ⟨.file, [doc, package, name, .list ds, comments]⟩ := by
  obtain ⟨k, fs⟩ := file
  obtain ⟨rfl, hconforms⟩ := h
  obtain ⟨hlength, hslots, -⟩ := Tree.conforms_node.mp hconforms
  match fs, hlength with
  | [doc, package, name, decls, comments], _ =>
    obtain ⟨ds, rfl⟩ :=
      Slot.exists_list_of_accepts (hslots (⟨.decls, .list .decl⟩, decls) (by simp [Kind.fields]))
    exact ⟨doc, package, name, ds, comments, rfl⟩

theorem Node.IsFile.exists_of_mapDecls? {file : Node} (h : file.IsFile)
    (f : List Tree → List Tree) :
    ∃ file', file.mapDecls? f = some file' ∧ file'.list .decls = f (file.list .decls) := by
  obtain ⟨doc, package, name, ds, comments, rfl⟩ := h.exists_fields
  exact ⟨_, rfl, rfl⟩

namespace Tree

theorem exists_of_isImportDecl {d : Tree} (hd : d.FitsIn .decl) (h : d.isImportDecl = true) :
    ∃ doc p lparen specs rparen, d = .node .genDecl
      [doc, p, .tok .kwImport, lparen, .list specs, rparen] := by
  obtain ⟨hconforms, ⟨k, fs⟩, rfl, -⟩ := hd
  simp only [isImportDecl, Node.tree, node?, Option.map_some, Option.getD_some, Node.isImportDecl,
    Bool.and_eq_true, beq_iff_eq] at h
  obtain ⟨rfl, htok⟩ := h
  obtain ⟨hlength, hslots, -⟩ := conforms_node.mp hconforms
  match fs, hlength with
  | [doc, p, word, lparen, specs, rparen], _ =>
    obtain ⟨ss, rfl⟩ :=
      Slot.exists_list_of_accepts (hslots (⟨.specs, .list .spec⟩, specs) (by simp [Kind.fields]))
    cases word with
    | tok t =>
      cases htok
      exact ⟨doc, p, lparen, ss, rparen, rfl⟩
    | _ => cases htok

theorem exists_of_imported? {s : Tree} (hs : s.FitsIn .spec) {i : Imported}
    (h : s.imported? = some i) :
    ∃ doc name path, s = .node .importSpec [doc, name, path] := by
  obtain ⟨hconforms, ⟨k, fs⟩, rfl, -⟩ := hs
  have hk : k = .importSpec := by
    obtain ⟨path, hpath, -⟩ := Option.map_eq_some_iff.mp h
    obtain ⟨literal, hliteral, -⟩ := Option.bind_eq_some_iff.mp hpath
    cases k <;> first | rfl | cases hliteral
  subst hk
  obtain ⟨hlength, -, -⟩ := conforms_node.mp hconforms
  match fs, hlength with
  | [doc, name, path], _ => exact ⟨doc, name, path, rfl⟩

theorem filterMap_imported? (s : Tree) : [s].filterMap imported? = s.imported?.toList := by
  rw [List.filterMap_cons, List.filterMap_nil]
  cases s.imported? <;> rfl

theorem fitsIn_spec {d : Tree} (hd : d.FitsIn .decl) (h : d.isImportDecl = true)
    {i : Nat} {s : Tree} (hs : d.specs[i]? = some s) : s.FitsIn .spec := by
  obtain ⟨doc, p, lparen, ss, rparen, rfl⟩ := exists_of_isImportDecl hd h
  exact Node.conforms_list_items (n := ⟨.genDecl, _⟩) (l := .specs) hd.1 rfl s
    (List.mem_of_getElem? hs)

theorem imported?_alias (doc path : Tree) (name : Option String) :
    (node .importSpec [doc, aliasTree name, path]).imported? =
      (ImportPath.ofSpec? ⟨.importSpec, [doc, aliasTree name, path]⟩).map fun p => ⟨p, name⟩ := by
  cases name <;> rfl

/-- The specification of an import under another name, or none. -/
def renamed (name : Option String) (s : Tree) : Tree :=
  match s.node? with
  | some n => n.set .name (aliasTree name)
  | none => s

theorem imported?_renamed {s : Tree} (hs : s.FitsIn .spec) {i : Imported} (h : s.imported? = some i)
    (name : Option String) : (s.renamed name).imported? = some ⟨i.path, name⟩ := by
  obtain ⟨doc, old, path, rfl⟩ := exists_of_imported? hs h
  obtain ⟨p, hp, rfl⟩ := Option.map_eq_some_iff.mp h
  exact (imported?_alias doc path name).trans
    (congrArg (Option.map fun p => (⟨p, name⟩ : Imported)) hp)

theorem importSpecs_mapSpecs {d : Tree} (hd : d.FitsIn .decl) (h : d.isImportDecl = true)
    {f : List Tree → List Tree} : (d.mapSpecs f).importSpecs = f d.specs := by
  obtain ⟨doc, p, lparen, ss, rparen, rfl⟩ := exists_of_isImportDecl hd h
  rfl

end Tree

namespace Node.IsFile

variable {file : Node}

theorem fitsIn_decl (h : file.IsFile) {i : Nat} {d : Tree} (hd : (file.list .decls)[i]? = some d) :
    d.FitsIn .decl :=
  conforms_list_items h.2 h.slot_decls d (List.mem_of_getElem? hd)

theorem importSpecs_of_mapDecls? (h : file.IsFile) {f : List Tree → List Tree} {file' : Node}
    (hmap : file.mapDecls? f = some file') :
    file'.importSpecs = (f (file.list .decls)).flatMap Tree.importSpecs := by
  obtain ⟨file'', hmap', hlist⟩ := h.exists_of_mapDecls? f
  rw [hmap'] at hmap
  cases hmap
  rw [Node.importSpecs, hlist]

end Node.IsFile

/-- A path that reads back as it is written is imported. -/
theorem imported?_importSpecTree {path : String}
    (h : ImportPath.unquote? (Quoted.string path) = some path) (name : Option String) :
    (importSpecTree path name).imported? = some ⟨path, name⟩ :=
  (Tree.imported?_alias _ _ name).trans (congrArg (Option.map fun p => (⟨p, name⟩ : Imported)) h)

section Edits

variable {file : Node} {path : String} {e : FileEdit}

/-- **Removing takes the specification of an import of the path out.** -/
theorem importSpecs_removeImport? (h : file.IsFile) (he : removeImport? file path = some e) :
    ∃ s i, file.import? path = some i ∧ s.imported? = some i ∧
      Spliced [s] [] file.importSpecs e.file.importSpecs := by
  unfold removeImport? at he
  obtain ⟨target, htarget, he⟩ := Option.bind_eq_some_iff.mp he
  obtain ⟨ds, d, ds', ss, s, ss', hds, hdecl, himport, hss, hspec, hi, -⟩ :=
    FileImport.exists_of_find? htarget
  have hd : (file.list .decls)[target.decl]? = some d := by simp [hds, ← hdecl]
  have hs : d.specs[target.spec]? = some s := by simp [hss, ← hspec]
  obtain ⟨d', hd', he⟩ := Option.bind_eq_some_iff.mp he
  rw [hd] at hd'
  cases hd'
  refine ⟨s, target.imported, by rw [← FileImport.map_find?, htarget, Option.map_some], hi, ?_⟩
  have hrest := Tree.importSpecs_mapSpecs (h.fitsIn_decl hd) himport (f := (·.eraseIdx target.spec))
  dsimp only at he
  split at he
  · rename_i hempty
    obtain ⟨file', hmap, he⟩ := Option.bind_eq_some_iff.mp he
    cases he
    rw [h.importSpecs_of_mapDecls? hmap]
    refine (Spliced.eraseIdx hd).flatMap ?_
    have herase : Spliced [s] [] d.importSpecs (d.specs.eraseIdx target.spec) := by
      rw [Tree.importSpecs_of_isImportDecl himport]
      exact Spliced.eraseIdx hs
    have hnone : (d.mapSpecs (·.eraseIdx target.spec)).importSpecs = [] := by
      rw [Tree.importSpecs, List.isEmpty_iff.mp hempty]
      split <;> rfl
    rwa [← hrest, hnone] at herase
  · obtain ⟨file', hmap, he⟩ := Option.bind_eq_some_iff.mp he
    cases he
    rw [h.importSpecs_of_mapDecls? hmap]
    refine (Spliced.set hd _).flatMap ?_
    rw [List.flatMap_singleton, hrest, Tree.importSpecs_of_isImportDecl himport]
    exact Spliced.eraseIdx hs

/-- **Renaming gives the specification of the first import of a path another name.** -/
theorem importSpecs_renameImport? (h : file.IsFile) {name : Option String}
    (he : renameImport? file path name = some e) :
    ∃ xs s ys i, file.importSpecs = xs ++ s :: ys ∧
      e.file.importSpecs = xs ++ s.renamed name :: ys ∧
      (∀ t ∈ xs, t.importsPath path = false) ∧ s.FitsIn .spec ∧ s.imported? = some i ∧
      file.import? path = some i ∧ i.name ≠ name := by
  unfold renameImport? at he
  obtain ⟨target, htarget, he⟩ := Option.bind_eq_some_iff.mp he
  obtain ⟨ds, d, ds', ss, s, ss', hds, hdecl, himport, hss, hspec, hi, hothers⟩ :=
    FileImport.exists_of_find? htarget
  have hd : d.FitsIn .decl := h.fitsIn_decl (i := target.decl) (by simp [hds, ← hdecl])
  have hs : s.FitsIn .spec := Tree.fitsIn_spec hd himport (i := target.spec)
    (by simp [hss, ← hspec])
  split at he
  · cases he
  · rename_i hname
    obtain ⟨file', hmap, he⟩ := Option.bind_eq_some_iff.mp he
    cases he
    refine ⟨ds.flatMap Tree.importSpecs ++ ss, s, ss' ++ ds'.flatMap Tree.importSpecs,
      target.imported, ?_, ?_, hothers, hs,
      hi, by rw [← FileImport.map_find?, htarget, Option.map_some],
      fun heq => hname (beq_iff_eq.mpr heq)⟩
    · rw [Node.importSpecs, hds, List.flatMap_append, List.flatMap_cons,
        Tree.importSpecs_of_isImportDecl himport, hss]
      simp only [List.append_assoc, List.cons_append]
    · rw [h.importSpecs_of_mapDecls? hmap, hds, ← hdecl, modify_append_cons, List.flatMap_append,
        List.flatMap_cons, Tree.importSpecs_mapSpecs hd himport, hss, ← hspec, modify_append_cons]
      simp only [List.append_assoc, List.cons_append]
      rfl

/-- **Adding puts a specification somewhere into the list.** -/
theorem importSpecs_addImport (h : file.IsFile) (path : String) (name : Option String) :
    Spliced [] [importSpecTree path name] file.importSpecs
      (addImport file path name).file.importSpecs := by
  unfold addImport
  dsimp only
  split
  · rename_i i hi
    obtain ⟨file', hmap, -⟩ := h.exists_of_mapDecls?
      (·.modify i (Tree.mapSpecs (insertSpec path (importSpecTree path name))))
    rw [hmap, h.importSpecs_of_mapDecls? hmap]
    obtain ⟨hlt, himport, -⟩ := List.findIdx?_eq_some_iff_getElem.mp hi
    have hd := List.getElem?_eq_getElem hlt
    refine (Spliced.modify hd _).flatMap ?_
    rw [List.flatMap_singleton, Tree.importSpecs_mapSpecs (h.fitsIn_decl hd) himport,
      Tree.importSpecs_of_isImportDecl himport]
    exact spliced_insertSpec path _ _
  · obtain ⟨file', hmap, -⟩ := h.exists_of_mapDecls? (Tree.node .genDecl
      [.nil, .pos .none, .tok .kwImport, .pos .none, .list [importSpecTree path name],
        .pos .none] :: ·)
    rw [hmap, h.importSpecs_of_mapDecls? hmap, List.flatMap_cons]
    exact ⟨[], file.importSpecs, rfl, rfl⟩

/-- **Removing takes the first import of a path out.** -/
theorem spliced_removeImport? (h : file.IsFile) (he : removeImport? file path = some e) :
    ∃ i, file.import? path = some i ∧ Spliced [i] [] file.imports e.file.imports := by
  obtain ⟨s, i, hfound, hi, hspliced⟩ := importSpecs_removeImport? h he
  have hspliced := hspliced.filterMap Tree.imported?
  rw [Tree.filterMap_imported?, hi, ← Node.imports_eq, ← Node.imports_eq] at hspliced
  exact ⟨i, hfound, hspliced⟩

/-- **Renaming gives the first import of a path another name.** -/
theorem spliced_renameImport? (h : file.IsFile) {name : Option String}
    (he : renameImport? file path name = some e) :
    ∃ i, file.import? path = some i ∧
      Spliced [i] [⟨path, name⟩] file.imports e.file.imports := by
  obtain ⟨xs, s, ys, i, hbefore, hafter, -, hs, hi, hfound, -⟩ := importSpecs_renameImport? h he
  refine ⟨i, hfound, xs.filterMap Tree.imported?, ys.filterMap Tree.imported?, ?_, ?_⟩
  · rw [Node.imports_eq, hbefore]
    simp [hi]
  · rw [Node.imports_eq, hafter]
    simp [Tree.imported?_renamed hs hi, Node.path_of_import? hfound]

/-- **Adding puts an import somewhere into the list.** -/
theorem spliced_addImport (h : file.IsFile) (path : String) (name : Option String) :
    Spliced [] (importSpecTree path name).imported?.toList file.imports
      (addImport file path name).file.imports := by
  rw [← Tree.filterMap_imported?, Node.imports_eq, Node.imports_eq]
  exact (importSpecs_addImport h path name).filterMap Tree.imported?

end Edits

/-! ### Names that nothing uses -/

/-- Whether no selector in a value uses a name as its qualifier. -/
def Tree.Unused (name : String) (t : Tree) : Prop :=
  ∀ n ∈ t.nodes, n.kind = .selectorExpr → (n.node? .x).bind (·.name?) ≠ some name

theorem Node.usesName_eq_false {file : Node} {name : String} :
    file.usesName name = false ↔ file.tree.Unused name := by
  simp [Node.usesName, Tree.Unused]

namespace Tree.Unused

variable {name : String}

theorem list {ts : List Tree} : (Tree.list ts).Unused name ↔ ∀ t ∈ ts, t.Unused name := by
  rw [Unused, Tree.nodes_list, Tree.forall_nodesAll]
  rfl

theorem node {n : Node} (hn : n.kind ≠ .selectorExpr) :
    n.tree.Unused name ↔ ∀ t ∈ n.fields, t.Unused name := by
  rw [Unused, Node.tree, Tree.nodes_node, List.forall_mem_cons, Tree.forall_nodesAll]
  exact and_iff_right fun h => absurd h hn

theorem get {n : Node} (h : n.tree.Unused name) (l : Label) : (n.get l).Unused name := by
  unfold Node.get
  split
  · rename_i i hi
    cases ht : n.fields[i]? with
    | none => nofun
    | some t =>
      intro m hm
      refine h m ?_
      rw [Node.tree, Tree.nodes_node]
      exact List.mem_cons_of_mem _ (Tree.mem_nodesAll.mpr ⟨t, List.mem_of_getElem? ht, hm⟩)
  · nofun

theorem items {n : Node} (h : n.tree.Unused name) (l : Label) : ∀ t ∈ n.list l, t.Unused name := by
  have hget := h.get l
  intro t ht
  rw [Node.list] at ht
  cases hlist : n.get l with
  | list ts =>
    rw [hlist] at hget ht
    exact list.mp hget t ht
  | _ =>
    rw [hlist] at ht
    cases ht

theorem set {n : Node} (h : n.tree.Unused name) {l : Label}
    (hl : Kind.selectorExpr.indexOf? l = none) {t : Tree} (ht : t.Unused name) :
    (n.set l t).tree.Unused name := by
  by_cases hn : n.kind = .selectorExpr
  · rw [Node.set, hn, hl]
    exact h
  · rw [node (by rwa [Node.kind_set])]
    rw [node hn] at h
    unfold Node.set
    split
    · intro u hu
      rcases List.mem_or_eq_of_mem_set hu with hu | rfl
      · exact h u hu
      · exact ht
    · exact h

theorem mapDecls? {file file' : Node} (h : file.tree.Unused name) {f : List Tree → List Tree}
    (hf : ∀ ds, (∀ d ∈ ds, d.Unused name) → ∀ d ∈ f ds, d.Unused name)
    (hmap : file.mapDecls? f = some file') : file'.tree.Unused name := by
  unfold Node.mapDecls? at hmap
  split at hmap
  · rename_i ds hds
    cases hmap
    have hdecls := h.get .decls
    rw [hds, list] at hdecls
    exact h.set rfl (list.mpr (hf ds hdecls))
  · cases hmap

theorem mapSpecs {decl : Tree} (h : decl.Unused name) {f : List Tree → List Tree}
    (hf : ∀ ss, (∀ s ∈ ss, s.Unused name) → ∀ s ∈ f ss, s.Unused name) :
    (decl.mapSpecs f).Unused name := by
  unfold Tree.mapSpecs
  split
  · rename_i n hn
    obtain rfl := Tree.tree_of_node? hn
    split
    · rename_i ss hss
      have hspecs := h.get .specs
      rw [hss, list] at hspecs
      exact h.set rfl (list.mpr (hf ss hspecs))
    · exact h
  · exact h

theorem ident (p : Pos) (s : String) : (Tree.ident p s).Unused name :=
  (node (n := ⟨.ident, _⟩) nofun).mpr
    (List.forall_mem_cons.mpr ⟨nofun, List.forall_mem_singleton.mpr nofun⟩)

theorem aliasTree (given : Option String) : (aliasTree given).Unused name := by
  cases given with
  | none => nofun
  | some s => exact ident .none s

theorem importSpecTree (path : String) (given : Option String) :
    (importSpecTree path given).Unused name := by
  refine (node (n := ⟨.importSpec, _⟩) nofun).mpr ?_
  have hliteral : (Tree.node .basicLit [.pos .none, .tok .string, .str (Quoted.string path)]).Unused
      name := by
    refine (node (n := ⟨.basicLit, _⟩) nofun).mpr ?_
    simp [Unused, Tree.nodes]
  simp only [List.forall_mem_cons]
  exact ⟨nofun, aliasTree given, hliteral, nofun⟩

end Tree.Unused

/-- **The edits of a header bring in no selector.** -/
theorem Recipe.editsKeep_unused (name : String) : EditsKeep fun file => file.tree.Unused name where
  remove {file path e} h he := by
    unfold removeImport? at he
    obtain ⟨target, -, he⟩ := Option.bind_eq_some_iff.mp he
    obtain ⟨decl, hdecl, he⟩ := Option.bind_eq_some_iff.mp he
    dsimp only at he
    split at he
    · obtain ⟨file', hmap, he⟩ := Option.bind_eq_some_iff.mp he
      cases he
      exact h.mapDecls? (fun ds hds d hd => hds d (List.mem_of_mem_eraseIdx hd)) hmap
    · obtain ⟨file', hmap, he⟩ := Option.bind_eq_some_iff.mp he
      cases he
      refine h.mapDecls? (fun ds hds d hd => ?_) hmap
      rcases List.mem_or_eq_of_mem_set hd with hd | rfl
      · exact hds d hd
      · have hunused := h.items .decls decl (List.mem_of_getElem? hdecl)
        exact hunused.mapSpecs fun ss hss s hs => hss s (List.mem_of_mem_eraseIdx hs)
  rename {file path given e} h he := by
    unfold renameImport? at he
    obtain ⟨target, -, he⟩ := Option.bind_eq_some_iff.mp he
    split at he
    · cases he
    · obtain ⟨file', hmap, he⟩ := Option.bind_eq_some_iff.mp he
      cases he
      refine h.mapDecls? (fun ds hds => forall_mem_modify (fun d hd => ?_) _ hds) hmap
      refine hd.mapSpecs fun ss hss => forall_mem_modify (fun s hs => ?_) _ hss
      split
      · rename_i n hn
        obtain rfl := Tree.tree_of_node? hn
        exact hs.set rfl (.aliasTree given)
      · exact hs
  add {file} path given h := by
    have hspec : (importSpecTree path given).Unused name := .importSpecTree path given
    unfold addImport
    dsimp only
    split
    · split
      · rename_i file' hmap
        refine h.mapDecls? (fun ds hds => forall_mem_modify (fun d hd => ?_) _ hds) hmap
        refine hd.mapSpecs fun ss hss s hs => ?_
        rcases (spliced_insertSpec path _ ss).symm.mem_or_mem hs with hs | hs
        · rw [List.mem_singleton.mp hs]
          exact hspec
        · exact hss s hs
      · exact h
    · split
      · rename_i file' hmap
        refine h.mapDecls? (fun ds hds => List.forall_mem_cons.mpr ⟨?_, hds⟩) hmap
        refine (Tree.Unused.node (n := ⟨.genDecl, _⟩) (by rintro ⟨⟩)).mpr ?_
        simp only [List.forall_mem_cons]
        have hspecs := Tree.Unused.list.mpr (List.forall_mem_singleton.mpr hspec)
        have hleaf {t : Tree} (ht : t.nodes = []) : t.Unused name := by
          rw [Tree.Unused, ht]
          exact List.forall_mem_nil _
        exact ⟨hleaf rfl, hleaf rfl, hleaf rfl, hleaf rfl, hspecs, hleaf rfl, List.forall_mem_nil _⟩
      · exact h
  package p given h := h.set rfl (.ident p given)

end Graft
