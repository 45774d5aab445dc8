import Graft.Proofs.Recipe.WindowImports

/-! # Imports that both sides list

An import that pattern and replacement list alike is there to be found, not to be changed.  The
pattern finds it by the name under which the file uses it, written out or not.  The edits behind the
walk then compare the name that the file writes with the one that the replacement writes, and give
the import the latter where the two differ.  So its specification stays as it is where file and
listing agree on writing a name, or on writing none, and is changed where one of them writes the
name that the other leaves out (`Recipe.apply_importSpec?`).

Every other edit leaves the specification alone: each is a splice of specifications of other paths.
-/

namespace Graft

/-- Whether a specification of an import writes a name. -/
def Tree.givesName (s : Tree) : Bool := (s.imported?.bind (·.name)).isSome

/-- The name that a listing writes for an import whose name the file leaves out, and the other way
round. -/
def ImportClause.written (a : ImportClause) : Option String :=
  if a.givenName = .own then none else some (ImportPath.packageName a.path)

theorem Tree.importsPath_of_imported? {s : Tree} {i : Imported} (h : s.imported? = some i)
    (path : String) :
    s.importsPath path = (i.path == path) := by
  rw [importsPath, h, Option.any_some]

theorem Node.IsFile.fitsIn_of_importSpec? {file : Node} (h : file.IsFile) {path : String} {s : Tree}
    (hs : file.importSpec? path = some s) : s.FitsIn .spec := by
  obtain ⟨d, hd, hs⟩ := List.mem_flatMap.mp (List.mem_of_find?_eq_some hs)
  obtain ⟨i, hi⟩ := List.mem_iff_getElem?.mp hd
  by_cases himport : d.isImportDecl = true
  · rw [Tree.importSpecs_of_isImportDecl himport] at hs
    obtain ⟨j, hj⟩ := List.mem_iff_getElem?.mp hs
    exact Tree.fitsIn_spec (h.fitsIn_decl hi) himport hj
  · rw [Tree.importSpecs, if_neg himport] at hs
    cases hs

namespace Recipe

variable {r : Recipe} {c : Captures} {file : Node} {log : EditLog} {path p : String}

/-! ### One edit -/

/-- Removing an import leaves the first one of every other path alone. -/
theorem importSpec?_dropImport (h : file.IsFile) (incoming : List String) (log : EditLog)
    (hp : p ≠ path) :
    (dropImport c incoming file log path).1.importSpec? p = file.importSpec? p := by
  unfold dropImport
  dsimp only
  split
  · rfl
  · cases he : removeImport? file path with
    | none => rfl
    | some e =>
      obtain ⟨s, i, hfound, hi, hspliced⟩ := importSpecs_removeImport? h he
      refine hspliced.find?_eq (List.forall_mem_singleton.mpr ?_) (List.forall_mem_nil _)
      rw [Tree.importsPath_of_imported? hi, Node.path_of_import? hfound]
      exact beq_eq_false_iff_ne.mpr hp.symm

/-- Seeing to an import leaves the first one of every other path alone, unless it adds one that
reads back as that path. -/
theorem importSpec?_ensureImport_of_ne (h : file.IsFile) (log : EditLog) (hp : p ≠ path)
    (hreads : ImportPath.unquote? (Quoted.string path) ≠ some p) (name : Option String) :
    (r.ensureImport file log path name).1.importSpec? p = file.importSpec? p := by
  unfold ensureImport
  split
  · cases he : renameImport? file path name with
    | none => rfl
    | some e =>
      obtain ⟨xs, s, ys, i, hbefore, hafter, -, hs, hi, hfound, -⟩ := importSpecs_renameImport? h he
      have hspliced : Spliced [s] [s.renamed name] file.importSpecs e.file.importSpecs :=
        ⟨xs, ys, by rw [hbefore, List.append_assoc, List.singleton_append],
          by rw [hafter, List.append_assoc, List.singleton_append]⟩
      have hother : (i.path == p) = false := by
        rw [Node.path_of_import? hfound]
        exact beq_eq_false_iff_ne.mpr hp.symm
      refine hspliced.find?_eq (List.forall_mem_singleton.mpr ?_) (List.forall_mem_singleton.mpr ?_)
      · rwa [Tree.importsPath_of_imported? hi]
      · rwa [Tree.importsPath_of_imported? (Tree.imported?_renamed hs hi name)]
  · split
    · rfl
    · refine (importSpecs_addImport h path name).find?_eq (List.forall_mem_nil _)
        (List.forall_mem_singleton.mpr ?_)
      have hsays : (importSpecTree path name).imported? =
          (ImportPath.unquote? (Quoted.string path)).map fun p => ⟨p, name⟩ :=
          Tree.imported?_alias _ _ name
      rw [Tree.importsPath, hsays, Option.any_map, Option.any_eq_false]
      rintro q hq
      refine beq_eq_false_iff_ne.mpr fun heq => hreads ?_
      rw [hq]
      exact congrArg some heq

/-- An import is not renamed only if it has the name. -/
theorem name_of_renameImport? (h : file.IsFile) {i : Imported} (hi : file.import? path = some i)
    {name : Option String} (he : renameImport? file path name = none) : i.name = name := by
  rw [← FileImport.map_find?] at hi
  obtain ⟨target, htarget, rfl⟩ := Option.map_eq_some_iff.mp hi
  by_contra hname
  have hname : ¬ (target.name == name) = true := fun heq => hname (beq_iff_eq.mp heq)
  obtain ⟨file', hmap, -⟩ :=
    h.exists_of_mapDecls?
    (·.modify target.decl (Tree.mapSpecs (·.modify target.spec (Tree.renamed name))))
  have hsome : renameImport? file path name = some ⟨file', [target.span]⟩ := by
    unfold renameImport?
    rw [htarget, Option.bind_eq_bind, Option.bind_some, if_neg hname]
    exact congrArg (Option.bind · fun file' => some (⟨file', [target.span]⟩ : FileEdit)) hmap
  rw [hsome] at he
  cases he

/-- Seeing to an import that the pattern lists writes the name that it is to have. -/
theorem importSpec?_ensureImport (h : file.IsFile) (log : EditLog)
    (hlisted : r.matched.any (·.path == path) = true) {s : Tree} {i : Imported}
    (hs : file.importSpec? path = some s) (hi : s.imported? = some i) (name : Option String) :
    (r.ensureImport file log path name).1.importSpec? path =
      some (if i.name = name then s else s.renamed name) := by
  have hfound := Node.import?_of_importSpec? hs hi
  unfold ensureImport
  rw [if_pos hlisted]
  cases he : renameImport? file path name with
  | none =>
    rw [if_pos (name_of_renameImport? h hfound he)]
    exact hs
  | some e =>
    obtain ⟨xs, s', ys, j, hbefore, hafter, hothers, hspec, hj, hfound', hname⟩ :=
      importSpecs_renameImport? h he
    have hfirst {t : Tree} (ht : t.importsPath path = true) :
        (xs ++ t :: ys).find? (·.importsPath path) = some t := by
      rw [List.find?_append, List.find?_eq_none.mpr fun u hu => by simp [hothers u hu],
        Option.none_or, List.find?_cons_of_pos ht]
    have hpath : (j.path == path) = true := beq_iff_eq.mpr (Node.path_of_import? hfound')
    obtain rfl : s' = s := by
      rw [Node.importSpec?, hbefore, hfirst (by rwa [Tree.importsPath_of_imported? hj])] at hs
      exact Option.some.inj hs
    rw [hi] at hj
    cases hj
    rw [if_neg hname]
    refine (congrArg (List.find? _) hafter).trans (hfirst ?_)
    rwa [Tree.importsPath_of_imported? (Tree.imported?_renamed hspec hi name)]

/-! ### Edits one after another -/

/-- Removing imports leaves the first one of a path alone that is not among theirs. -/
theorem importSpec?_foldl_dropNext (incoming : List String) {paths : List String} (hp : p ∉ paths)
    {s : Node × EditLog × Bool} (h : s.1.IsFile) :
    (paths.foldl (dropNext c incoming) s).1.IsFile ∧
      (paths.foldl (dropNext c incoming) s).1.importSpec? p = s.1.importSpec? p := by
  induction paths generalizing s with
  | nil => exact ⟨h, rfl⟩
  | cons path paths ih =>
    rw [List.mem_cons, not_or] at hp
    have hfile : (dropNext c incoming s path).1.IsFile :=
      editsKeep_isFile.dropImport h incoming s.2.1 path
    exact (ih hp.2 hfile).imp_right fun hrest => hrest.trans
      (importSpec?_dropImport h incoming s.2.1 hp.1)

/-- Seeing to imports writes the name of an import that both sides list as the replacement does. -/
theorem importSpec?_foldl_ensureNext (hlisted : r.matched.any (·.path == path) = true)
    {name : Option String} {ws : List (String × Option String)}
    (hnamed : ∀ w ∈ ws, w.1 = path → w.2 = name)
    (hreads : ∀ w ∈ ws, w.1 ≠ path → ImportPath.unquote? (Quoted.string w.1) ≠ some path)
    {s : Node × EditLog × Bool} (h : s.1.IsFile) {t : Tree} (ht : s.1.importSpec? path = some t)
    {i : Imported} (hi : t.imported? = some i) :
    (ws.foldl r.ensureNext s).1.importSpec? path =
      some (if path ∈ ws.map (·.1) ∧ i.name ≠ name then t.renamed name else t) := by
  induction ws generalizing s t i with
  | nil => simpa using ht
  | cons w ws ih =>
    obtain ⟨hname, hnamed⟩ := List.forall_mem_cons.mp hnamed
    obtain ⟨hread, hreads⟩ := List.forall_mem_cons.mp hreads
    have hfile : (r.ensureNext s w).1.IsFile := editsKeep_isFile.ensureImport h s.2.1 w.1 w.2
    rw [List.foldl_cons]
    by_cases hw : w.1 = path
    · obtain rfl := hname hw
      subst hw
      have hnext : (r.ensureNext s w).1.importSpec? w.1 = _ :=
        importSpec?_ensureImport h s.2.1 hlisted ht hi w.2
      by_cases hsame : i.name = w.2
      · rw [if_pos hsame] at hnext
        rw [ih hnamed hreads hfile hnext hi]
        simp [hsame]
      · rw [if_neg hsame] at hnext
        rw [ih hnamed hreads hfile hnext
          (Tree.imported?_renamed (h.fitsIn_of_importSpec? ht) hi w.2)]
        simp [hsame]
    · have hnext : (r.ensureNext s w).1.importSpec? path = some t :=
        (importSpec?_ensureImport_of_ne h s.2.1 (Ne.symm hw) (hread hw) w.2).trans ht
      rw [ih hnamed hreads hfile hnext hi]
      simp only [List.map_cons, List.mem_cons, Ne.symm hw, false_or]

/-- The name that the replacement writes for an import that it lists as the pattern does. -/
theorem Gives.wantedName_eq {clause : ImportClause} {name : String} (h : Gives c clause name) :
    Recipe.wantedName c clause = if clause.givenName = .own then none else some name := by
  unfold Gives at h
  unfold Recipe.wantedName
  cases hgiven : clause.givenName with
  | own => rfl
  | name s =>
    rw [hgiven] at h
    exact congrArg some h.symm
  | metavar m =>
    rw [hgiven] at h
    obtain ⟨v, s, hv, hname⟩ := h
    dsimp only
    rw [hv, Option.bind_some, hname]
    rfl

/-- **Bringing imports into line leaves an import that both sides list as it is**, unless just one
of file and listing writes a name for it. -/
theorem importSpec?_updateImports (h : file.IsFile) {a : ImportClause} (hmatched : a ∈ r.matched)
    (hwanted : a ∈ r.wanted) (honly : ∀ b ∈ r.wanted, b.path = a.path → b = a)
    (hreads : ∀ b ∈ r.wanted, b.path ≠ a.path →
      ImportPath.unquote? (Quoted.string b.path) ≠ some a.path)
    {s : Tree} {i : Imported} (hs : file.importSpec? a.path = some s) (hi : s.imported? = some i)
    (hgives : Gives c a i.provided) (log : EditLog) :
    (r.updateImports c file log).1.importSpec? a.path =
      some (if s.givesName = true ↔ a.givenName = .own then s.renamed a.written else s) := by
  have hlisted : r.matched.any (·.path == a.path) = true :=
    List.any_eq_true.mpr ⟨a, hmatched, beq_self_eq_true _⟩
  have hwant : (a.path, wantedName c a) ∈ r.wantedImports c := List.mem_map.mpr ⟨a, hwanted, rfl⟩
  have hnamed : ∀ w ∈ r.wantedImports c, w.1 = a.path → w.2 = wantedName c a := by
    intro w hw hpath
    obtain ⟨b, hb, rfl⟩ := List.mem_map.mp hw
    rw [honly b hb hpath]
  have hothers : ∀ w ∈ r.wantedImports c, w.1 ≠ a.path →
      ImportPath.unquote? (Quoted.string w.1) ≠ some a.path := by
    intro w hw hpath
    obtain ⟨b, hb, rfl⟩ := List.mem_map.mp hw
    exact hreads b hb hpath
  rw [updateImports_eq]
  obtain ⟨hfile, hdropped⟩ := importSpec?_foldl_dropNext (c := c) (r.incomingNames c file)
    (notMem_droppedPaths hwant) (s := (file, log, false)) h
  rw [importSpec?_foldl_ensureNext hlisted hnamed hothers hfile (hdropped.trans hs) hi]
  have hlist : a.path ∈ (r.wantedImports c).map (·.1) := List.mem_map.mpr ⟨_, hwant, rfl⟩
  have hname : s.givesName = i.name.isSome := by rw [Tree.givesName, hi, Option.bind_some]
  rw [hgives.wantedName_eq, ImportClause.written, hname]
  by_cases hown : a.givenName = .own
  · simp [hown, hlist, Option.isSome_iff_ne_none]
  · -- the replacement writes the name under which the file uses the import
    have hpath := Node.path_of_import? (Node.import?_of_importSpec? hs hi)
    rw [if_neg hown, if_neg hown, Imported.provided, hpath]
    cases hgiven : i.name with
    | none => simp [hown, hlist]
    | some name => simp [hown]

/-! ### Recipes -/

/-- Whether a recipe came to replacing something. -/
def Outcome.isEffective (o : Outcome) : Bool :=
  match o.result with
  | .ok count => count != 0
  | .error _ => false

/-- Behind a walk, an import that both sides list is changed only by bringing imports into line. -/
theorem importSpec?_finish (h : file.IsFile) {a : ImportClause} (hmatched : a ∈ r.matched)
    (hwanted : a ∈ r.wanted) (honly : ∀ b ∈ r.wanted, b.path = a.path → b = a)
    (hreads : ∀ b ∈ r.wanted, b.path ≠ a.path →
      ImportPath.unquote? (Quoted.string b.path) ≠ some a.path)
    {s : Tree} {i : Imported} (hs : file.importSpec? a.path = some s) (hi : s.imported? = some i)
    (hgives : Gives c a i.provided) {count : Nat} {opts : Options} :
    (r.finish c count file log opts).file.importSpec? a.path =
      some (if opts.fixImports = true ∧ (r.finish c count file log opts).isEffective = true ∧
          (s.givesName = true ↔ a.givenName = .own) then s.renamed a.written else s) := by
  have hupdated := importSpec?_updateImports h hmatched hwanted honly hreads hs hi hgives log
  have hdone : (r.importsDone c file log opts).1.IsFile ∧
      (r.importsDone c file log opts).1.importSpec? a.path =
      some (if opts.fixImports = true ∧ (s.givesName = true ↔ a.givenName = .own)
        then s.renamed a.written else s) := by
    unfold importsDone
    split
    · rename_i hfix
      simpa [hfix] using ⟨editsKeep_isFile.updateImports h log, hupdated⟩
    · rename_i hfix
      simpa [hfix] using ⟨h, hs⟩
  obtain ⟨hfile, hdone⟩ := hdone
  cases heffective : (r.finish c count file log opts).isEffective with
  | false =>
    have hzero : (r.finish c count file log opts).result = .ok 0 := by
      unfold Outcome.isEffective at heffective
      split at heffective
      · rename_i n hn
        rw [hn, (by simpa using heffective : n = 0)]
      · rename_i e he
        rw [finish_eq] at he
        split at he <;> cases he
    rw [finish_eq_of_zero hzero]
    simpa using hs
  | true =>
    rw [finish_eq]
    split
    · rename_i hcount
      dsimp only
      rw [Node.importSpec?, importSpecs_updatePackage hfile, ← Node.importSpec?]
      simpa using hdone
    · rename_i hcount
      have hcount : count = 0 ∧ r.isBodyless = false := by simpa using hcount
      rw [finish_eq, if_neg (by simp [hcount.1, hcount.2])] at heffective
      simp [Outcome.isEffective, hcount.1] at heffective

/-- **A recipe leaves an import that both sides list as it is**, unless just one of file and listing
writes a name for it and the recipe replaces something.  A recipe that does not spare the imports
has to leave them alone in this file. -/
theorem apply_importSpec? {text : List Char} {rs : List Recipe}
    (hrs : compilePatchFile text = .ok rs) (hr : r ∈ rs) (hkind : file.kind = .file)
    (hfile : file.tree.conforms = true)
    (hwalk : r.sparesImports = false → ∀ base, (r.walkFile base file log).1.importSpecs =
      file.importSpecs) {a : ImportClause} (hmatched : a ∈ r.matched) (hwanted : a ∈ r.wanted)
    (honly : ∀ b ∈ r.wanted, b.path = a.path → b = a)
    (hreads : ∀ b ∈ r.wanted, b.path ≠ a.path →
      ImportPath.unquote? (Quoted.string b.path) ≠ some a.path)
    {s : Tree} (hs : file.importSpec? a.path = some s) (opts : Options) :
    (r.apply file log opts).file.importSpec? a.path =
      some (if opts.fixImports = true ∧ (r.apply file log opts).isEffective = true ∧
          (s.givesName = true ↔ a.givenName = .own) then s.renamed a.written else s) := by
  obtain ⟨p, hp, hcompile⟩ := exists_patch_of_mem hrs hr
  cases hbase : r.matchHeader? file with
  | none =>
    have happly : r.apply file log opts = ⟨.ok 0, file, log⟩ := by simp only [apply, hbase]
    simpa [happly, Outcome.isEffective] using hs
  | some base =>
    have hspecs : (r.walkFile base file log).1.importSpecs = file.importSpecs := by
      cases hspares : r.sparesImports with
      | true => exact importSpecs_walkFile_of_spares hrs hr hspares ⟨hkind, hfile⟩ base log
      | false => exact hwalk hspares base
    have hwalked : (r.walkFile base file log).1.importSpec? a.path = some s := by
      rw [Node.importSpec?, hspecs]
      exact hs
    cases hfailure : (r.walkFile base file log).2.failure with
    | some e =>
      have happly : r.apply file log opts =
          ⟨.error e, (r.walkFile base file log).1, (r.walkFile base file log).2.log⟩ := by
        simp only [apply, hbase, hfailure]
      simpa [happly, Outcome.isEffective] using hwalked
    | none =>
      have happly : r.apply file log opts =
          r.finish ((r.walkFile base file log).2.last.getD base.visible)
          (r.walkFile base file log).2.count (r.walkFile base file log).1
          (r.walkFile base file log).2.log opts := by
        simp only [apply, hbase, hfailure]
      have hisFile : (r.walkFile base file log).1.IsFile :=
        walkFile_isFile (Patch.isSound_of_compile hp hcompile) (matchHeader?_conform hbase)
        ⟨hkind, hfile⟩ log
      obtain ⟨i, hfound, -, hgives⟩ :=
        settled_of_walkFile hrs hr hbase (Node.imports_congr hspecs) a hmatched
      obtain ⟨j, hj, -⟩ := Node.exists_of_importSpec? hwalked
      obtain rfl : i = j :=
        Option.some.inj (hfound.symm.trans (Node.import?_of_importSpec? hwalked hj))
      rw [happly]
      exact importSpec?_finish hisFile hmatched hwanted honly hreads hwalked hj hgives

/-- Here both sides list an import without a name, as the file has it. -/
theorem apply_importSpec?_kept :
    ∃ r file s,
      compilePatchFile "@@\n@@\n import \"x\"\n\n-f()\n+g()\n".toList = .ok [r] ∧
      parseFile .code "package p\n\nimport \"x\"\n\nvar a = f()\n".toList = .ok file ∧
      ⟨"x", .own⟩ ∈ r.matched ∧ ⟨"x", .own⟩ ∈ r.wanted ∧ file.importSpec? "x" = some s ∧
      (r.apply file .empty .default).isEffective = true ∧
      (r.apply file .empty .default).file.importSpec? "x" = some s := by
  have hpasses : passes "@@\n@@\n import \"x\"\n\n-f()\n+g()\n"
      "package p\n\nimport \"x\"\n\nvar a = f()\n" (fun r file =>
        r.sparesImports && file.kind == .file && file.tree.conforms &&
          r.matched == [⟨"x", .own⟩] && r.wanted == [⟨"x", .own⟩] &&
          (file.importSpec? "x").any (!·.givesName) &&
          (r.apply file .empty .default).isEffective) = true := by
    decide +kernel
  obtain ⟨r, file, hrs, hfile, hcheck⟩ := exists_of_passes hpasses
  simp only [Bool.and_eq_true, beq_iff_eq, Option.any_eq_true, Bool.not_eq_true'] at hcheck
  obtain ⟨⟨⟨⟨⟨⟨hspares, hkind⟩, hconforms⟩, hmatched⟩, hwanted⟩, s, hs, hname⟩, heffective⟩ :=
    hcheck
  have hlisted : (⟨"x", .own⟩ : ImportClause) ∈ r.matched := by simp [hmatched]
  have hlisted' : (⟨"x", .own⟩ : ImportClause) ∈ r.wanted := by simp [hwanted]
  refine ⟨r, file, s, hrs, hfile, hlisted, hlisted', hs, heffective, ?_⟩
  have hkept : (r.apply file .empty .default).file.importSpec? "x" = some _ :=
    apply_importSpec? hrs List.mem_cons_self hkind hconforms (by simp [hspares]) hlisted hlisted'
      (by simp [hwanted]) (by simp [hwanted]) hs .default
  simpa [hname] using hkept

/-- Whether a patch changes an import that both its sides list alike. -/
def Respells (patch text path : String) (given : Alias) : Prop :=
  ∃ r file s, compilePatchFile patch.toList = .ok [r] ∧ parseFile .code text.toList = .ok file ∧
    ⟨path, given⟩ ∈ r.matched ∧ ⟨path, given⟩ ∈ r.wanted ∧ file.importSpec? path = some s ∧
    s ∉ (r.apply file .empty .default).file.importSpecs

theorem respells_of_passes {patch text path : String} {given : Alias}
    (h : passes patch text (fun r file =>
      r.matched == [⟨path, given⟩] && r.wanted == [⟨path, given⟩] &&
        (file.importSpec? path).any fun s =>
          (r.apply file .empty .default).file.importSpecs.all (·.givesName != s.givesName)) =
          true) :
    Respells patch text path given := by
  obtain ⟨r, file, hrs, hfile, hcheck⟩ := exists_of_passes h
  simp only [Bool.and_eq_true, beq_iff_eq, Option.any_eq_true, List.all_eq_true,
    bne_iff_ne] at hcheck
  obtain ⟨⟨hmatched, hwanted⟩, s, hs, hothers⟩ := hcheck
  exact ⟨r, file, s, hrs, hfile, by simp [hmatched], by simp [hwanted], hs,
    fun hmem => hothers s hmem rfl⟩

/-- A name that the file writes is taken away where the sides write none, and one is written where
the sides write it, as it is or as a metavariable. -/
theorem apply_importSpec?_respelled :
    Respells "@@\n@@\n import \"x\"\n\n-f()\n+g()\n" "package p\n\nimport x \"x\"\n\nvar a = f()\n"
      "x" .own ∧
      Respells "@@\n@@\n import x \"x\"\n\n-f()\n+g()\n"
      "package p\n\nimport \"x\"\n\nvar a = f()\n" "x"
        (.name "x") ∧
      Respells "@@\nvar m identifier\n@@\n import m \"x\"\n\n-f()\n+g()\n"
        "package p\n\nimport \"x\"\n\nvar a = f()\n" "x" (.metavar "m") := by
  refine ⟨?_, ?_, ?_⟩
  · apply respells_of_passes
    decide +kernel
  · apply respells_of_passes
    decide +kernel
  · apply respells_of_passes
    decide +kernel

end Recipe

end Graft
