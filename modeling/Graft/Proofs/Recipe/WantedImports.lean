import Graft.Proofs.Recipe.ListedImports

/-! # Imports that the replacement lists

What a file imports is a list of paths (`Node.importPaths`).  Bringing imports into line takes paths
out that only the pattern lists, leaves the list alone where it gives an import another name, and
puts a path in for an import that only the replacement lists, unless the list has it by then.  So
an import that the replacement lists stays if it was there, and comes if it was not.  A recipe of
nothing but imports finds them all there the second time.

A path that comes is written between quotes, with escapes, and read without undoing them.  It is the
same path again just if nothing in it is escaped (`ImportPath.unquote?_string_iff`); another one is
never found, and comes again each time (`Recipe.apply_importPaths_again`).
-/

namespace Graft

/-! ### Paths between quotes -/

namespace Quoted

/-- Whether a character stands for itself in a string in double quotes. -/
def isPlain (c : Char) : Bool := c != '\x22' && c != '\\' && isShown c

theorem toList_escape {c : Char} (h : isPlain c = true) : (escape '\x22' c).toList = [c] := by
  simp only [isPlain, Bool.and_eq_true, bne_iff_ne] at h
  obtain ⟨⟨hquote, hslash⟩, hshown⟩ := h
  have hcontrol {d : Char} (hd : isShown d = false) : c ≠ d := by
    rintro rfl
    rw [hd] at hshown
    cases hshown
  rw [escape, if_neg (hcontrol (by decide)), if_neg (hcontrol (by decide)),
    if_neg (hcontrol (by decide)), if_neg (hcontrol (by decide)), if_neg hslash, if_neg hquote,
    if_pos hshown, Char.toString_eq_singleton, String.toList_singleton]

/-- An escape takes more than one character. -/
theorem two_le_length_escape {c : Char} (h : isPlain c = false) :
    2 ≤ (escape '\x22' c).toList.length := by
  unfold escape
  repeat' split
  all_goals simp_all [isPlain]

theorem length_le_length_escaped (cs : List Char) :
    cs.length ≤ (cs.flatMap fun c => (escape '\x22' c).toList).length := by
  induction cs with
  | nil => exact Nat.zero_le _
  | cons c cs ih =>
    rw [List.flatMap_cons, List.length_append, List.length_cons]
    cases hc : isPlain c with
    | true => rw [toList_escape hc, List.length_singleton]; omega
    | false => have := two_le_length_escape hc; omega

/-- Characters stay as they are between quotes just if each of them stands for itself. -/
theorem escaped_eq_iff {cs : List Char} :
    (cs.flatMap fun c => (escape '\x22' c).toList) = cs ↔ ∀ c ∈ cs, isPlain c = true := by
  induction cs with
  | nil => simp
  | cons c cs ih =>
    rw [List.flatMap_cons, List.forall_mem_cons]
    cases hc : isPlain c with
    | true =>
      rw [toList_escape hc, List.singleton_append, List.cons.injEq, ih]
      simp
    | false =>
      refine iff_of_false (fun heq => ?_) fun h => Bool.noConfusion h.1
      have hlength := congrArg List.length heq
      rw [List.length_append, List.length_cons] at hlength
      have hfirst := two_le_length_escape hc
      have hrest := length_le_length_escaped cs
      omega

end Quoted

namespace ImportPath

/-- Whether nothing in a path is escaped when it is written between quotes. -/
def IsPlain (path : String) : Prop := ∀ c ∈ path.toList, Quoted.isPlain c = true

instance (path : String) : Decidable (IsPlain path) :=
  decidable_of_iff (path.toList.all Quoted.isPlain = true) List.all_eq_true

theorem unquote?_quotes (s : String) : unquote? ("\"" ++ s ++ "\"") = some s := by
  have hchars : ("\"" ++ s ++ "\"").toList = '\x22' :: (s.toList ++ ['\x22']) := by simp
  rw [unquote?, hchars]
  simp [between?]

/-- **A path reads back as it was just if nothing in it is escaped.** -/
theorem unquote?_string_iff {path : String} :
    unquote? (Quoted.string path) = some path ↔ IsPlain path := by
  rw [Quoted.string, unquote?_quotes, Option.some_inj, ← String.toList_inj, String.toList_join,
    List.flatMap_map]
  exact Quoted.escaped_eq_iff

end ImportPath

/-! ### The paths of a file -/

/-- The paths that a file imports, in order. -/
def Node.importPaths (file : Node) : List String := (FileImport.ofFile file).map (·.path)

theorem Node.importPaths_eq (file : Node) : file.importPaths = file.imports.map (·.path) := by
  rw [importPaths, ← FileImport.map_ofFile, List.map_map]
  rfl

theorem Node.mem_importPaths {file : Node} {path : String} :
    path ∈ file.importPaths ↔ FileImport.isPresent file path = true := by
  simp [importPaths, FileImport.isPresent]

theorem Node.importPaths_congr {file file' : Node} (h : file'.importSpecs = file.importSpecs) :
    file'.importPaths = file.importPaths := by
  rw [importPaths_eq, Node.imports_congr h, ← importPaths_eq]

section Edits

variable {file : Node} {path : String} {e : FileEdit}

theorem importPaths_removeImport? (h : file.IsFile) (he : removeImport? file path = some e) :
    Spliced [path] [] file.importPaths e.file.importPaths := by
  obtain ⟨i, hi, hspliced⟩ := spliced_removeImport? h he
  have hpaths := hspliced.map (·.path)
  rwa [List.map_singleton, Node.path_of_import? hi, ← Node.importPaths_eq,
    ← Node.importPaths_eq] at hpaths

theorem importPaths_renameImport? (h : file.IsFile) {name : Option String}
    (he : renameImport? file path name = some e) : e.file.importPaths = file.importPaths := by
  obtain ⟨i, hi, xs, ys, hbefore, hafter⟩ := spliced_renameImport? h he
  rw [Node.importPaths_eq, Node.importPaths_eq, hbefore, hafter]
  simp only [List.map_append, List.map_singleton, Node.path_of_import? hi]

theorem importPaths_addImport (h : file.IsFile) (path : String) (name : Option String) :
    Spliced [] (ImportPath.unquote? (Quoted.string path)).toList file.importPaths
      (addImport file path name).file.importPaths := by
  have hpaths := (spliced_addImport h path name).map (·.path)
  have hspec : (importSpecTree path name).imported? =
      (ImportPath.unquote? (Quoted.string path)).map fun p => ⟨p, name⟩ :=
      Tree.imported?_alias _ _ name
  rw [hspec, ← Node.importPaths_eq, ← Node.importPaths_eq] at hpaths
  cases hread : ImportPath.unquote? (Quoted.string path) with
  | none => rwa [hread] at hpaths
  | some p => rwa [hread] at hpaths

end Edits

namespace Recipe

variable {r : Recipe} {c : Captures} {file : Node} {log : EditLog} {path p : String}
  {opts : Options}

/-! ### One edit -/

/-- Removing an import takes its path out, if anything. -/
theorem importPaths_dropImport (h : file.IsFile) (incoming : List String) (log : EditLog)
    (path : String) :
    (dropImport c incoming file log path).1.importPaths = file.importPaths ∨
      Spliced [path] [] file.importPaths (dropImport c incoming file log path).1.importPaths := by
  unfold dropImport
  dsimp only
  split
  · exact .inl rfl
  · cases he : removeImport? file path with
    | none => exact .inl rfl
    | some e => exact .inr (importPaths_removeImport? h he)

/-- Seeing to an import changes the paths only for one that the pattern does not list and the file
does not have: then what its path reads back as comes. -/
theorem importPaths_ensureImport (h : file.IsFile) (log : EditLog) (path : String)
    (name : Option String) :
    (r.ensureImport file log path name).1.importPaths = file.importPaths ∧
        (path ∈ r.matched.map (·.path) ∨ path ∈ file.importPaths) ∨
      path ∉ r.matched.map (·.path) ∧ path ∉ file.importPaths ∧
        Spliced [] (ImportPath.unquote? (Quoted.string path)).toList file.importPaths
          (r.ensureImport file log path name).1.importPaths := by
  have hlisted : path ∈ r.matched.map (·.path) ↔ r.matched.any (·.path == path) = true := by simp
  rw [hlisted, Node.mem_importPaths]
  unfold ensureImport
  split
  · rename_i hmatched
    refine .inl ⟨?_, .inl hmatched⟩
    cases he : renameImport? file path name with
    | none => rfl
    | some e => exact importPaths_renameImport? h he
  · rename_i hmatched
    split
    · rename_i hpresent
      exact .inl ⟨rfl, .inr hpresent⟩
    · rename_i hpresent
      exact .inr ⟨hmatched, hpresent, importPaths_addImport h path name⟩

/-! ### Edits one after another -/

/-- Removing imports takes paths out, and none but those to remove. -/
theorem importPaths_foldl_dropNext (incoming : List String) (paths : List String)
    {s : Node × EditLog × Bool} (h : s.1.IsFile) :
    (paths.foldl (dropNext c incoming) s).1.IsFile ∧
      (paths.foldl (dropNext c incoming) s).1.importPaths.Sublist s.1.importPaths ∧
      ∀ p ∈ s.1.importPaths, p ∉ paths →
      p ∈ (paths.foldl (dropNext c incoming) s).1.importPaths := by
  induction paths generalizing s with
  | nil => exact ⟨h, .refl _, fun p hp _ => hp⟩
  | cons path paths ih =>
    have hfile : (dropNext c incoming s path).1.IsFile :=
      editsKeep_isFile.dropImport h incoming s.2.1 path
    have hstep : (dropNext c incoming s path).1.importPaths.Sublist s.1.importPaths ∧
        ∀ p ∈ s.1.importPaths, p ≠ path → p ∈ (dropNext c incoming s path).1.importPaths := by
      rcases importPaths_dropImport (c := c) h incoming s.2.1 path with heq | hspliced
      · exact ⟨heq ▸ .refl _, fun p hp _ => heq ▸ hp⟩
      · refine ⟨hspliced.sublist, fun p hp hne => (hspliced.mem_or_mem hp).resolve_left
          fun hout => ?_⟩
        exact hne (List.mem_singleton.mp hout)
    obtain ⟨hlast, hrest, hstay⟩ := ih hfile
    refine ⟨hlast, hrest.trans hstep.1, fun p hp hnot => ?_⟩
    rw [List.mem_cons, not_or] at hnot
    exact hstay p (hstep.2 p hp hnot.1) hnot.2

/-- Seeing to imports takes no path out.  Each plain path comes that the pattern does not list, and
none comes but what one of the paths reads back as. -/
theorem importPaths_foldl_ensureNext (ws : List (String × Option String))
    {s : Node × EditLog × Bool} (h : s.1.IsFile) :
    (ws.foldl r.ensureNext s).1.IsFile ∧ s.1.importPaths ⊆ (ws.foldl r.ensureNext s).1.importPaths ∧
      (∀ w ∈ ws, w.1 ∉ r.matched.map (·.path) → ImportPath.IsPlain w.1 →
        w.1 ∈ (ws.foldl r.ensureNext s).1.importPaths) ∧
      ∀ p ∈ (ws.foldl r.ensureNext s).1.importPaths, p ∈ s.1.importPaths ∨
        ∃ w ∈ ws, ImportPath.unquote? (Quoted.string w.1) = some p := by
  induction ws generalizing s with
  | nil => exact ⟨h, .refl _, nofun, fun p hp => .inl hp⟩
  | cons w ws ih =>
    have hfile : (r.ensureNext s w).1.IsFile := editsKeep_isFile.ensureImport h s.2.1 w.1 w.2
    have hstep : s.1.importPaths ⊆ (r.ensureNext s w).1.importPaths ∧
        (w.1 ∉ r.matched.map (·.path) → ImportPath.IsPlain w.1 →
          w.1 ∈ (r.ensureNext s w).1.importPaths) ∧
        ∀ p ∈ (r.ensureNext s w).1.importPaths, p ∈ s.1.importPaths ∨
          ImportPath.unquote? (Quoted.string w.1) = some p := by
      rcases importPaths_ensureImport (r := r) h s.2.1 w.1 w.2 with ⟨heq, hthere⟩ | ⟨-, -, hspliced⟩
      · exact ⟨heq.symm ▸ .refl _, fun hmatched _ => heq.symm ▸ hthere.resolve_left hmatched,
          fun p hp => .inl (heq ▸ hp)⟩
      · refine ⟨fun p hp => (hspliced.mem_or_mem hp).resolve_left nofun, fun _ hplain => ?_,
          fun p hp => ?_⟩
        · refine hspliced.mem_of_mem_into ?_
          rw [ImportPath.unquote?_string_iff.mpr hplain]
          exact List.mem_singleton_self _
        · exact (hspliced.symm.mem_or_mem hp).symm.imp_right Option.mem_toList.mp
    obtain ⟨hlast, hrest, hcome, honly⟩ := ih hfile
    refine ⟨hlast, fun p hp => hrest (hstep.1 hp), List.forall_mem_cons.mpr
      ⟨fun hmatched hplain => ?_, hcome⟩, fun p hp => ?_⟩
    · exact hrest (hstep.2.1 hmatched hplain)
    · rcases honly p hp with hbefore | ⟨v, hv, hreads⟩
      · exact (hstep.2.2 p hbefore).imp_right fun hreads => ⟨w, List.mem_cons_self, hreads⟩
      · exact .inr ⟨v, List.mem_cons_of_mem _ hv, hreads⟩

/-- Where all imports are there or listed by the pattern, seeing to them leaves the paths alone. -/
theorem importPaths_foldl_ensureNext_eq {ws : List (String × Option String)}
    {s : Node × EditLog × Bool} (h : s.1.IsFile)
    (hws : ∀ w ∈ ws, w.1 ∈ r.matched.map (·.path) ∨ w.1 ∈ s.1.importPaths) :
    (ws.foldl r.ensureNext s).1.importPaths = s.1.importPaths := by
  induction ws generalizing s with
  | nil => rfl
  | cons w ws ih =>
    obtain ⟨hw, hws⟩ := List.forall_mem_cons.mp hws
    have hfile : (r.ensureNext s w).1.IsFile := editsKeep_isFile.ensureImport h s.2.1 w.1 w.2
    have hsame : (r.ensureNext s w).1.importPaths = s.1.importPaths := by
      rcases importPaths_ensureImport (r := r) h s.2.1 w.1 w.2 with ⟨heq,
        -⟩ | ⟨hmatched, hpresent, -⟩
      · exact heq
      · exact absurd hw (not_or.mpr ⟨hmatched, hpresent⟩)
    rw [List.foldl_cons, ih hfile fun v hv => by rw [hsame]; exact hws v hv, hsame]

/-! ### Bringing imports into line -/

/-- An import that the replacement lists is there afterwards if it was there before, and also if its
path is plain and the pattern does not list it. -/
theorem mem_importPaths_updateImports (h : file.IsFile) (log : EditLog) {b : ImportClause}
    (hb : b ∈ r.wanted) (hpath : b.path ∉ file.importPaths → b.path ∉ r.matched.map (·.path) ∧
      ImportPath.IsPlain b.path) :
    b.path ∈ (r.updateImports c file log).1.importPaths := by
  have hwant : (b.path, wantedName c b) ∈ r.wantedImports c := List.mem_map.mpr ⟨b, hb, rfl⟩
  rw [updateImports_eq]
  obtain ⟨hfile, -, hstay⟩ := importPaths_foldl_dropNext (c := c) (r.incomingNames c file)
    (r.droppedPaths c)
    (s := (file, log, false)) h
  obtain ⟨-, hkeep, hcome, -⟩ := importPaths_foldl_ensureNext (r := r) (r.wantedImports c) hfile
  by_cases hthere : b.path ∈ file.importPaths
  · exact hkeep (hstay _ hthere (notMem_droppedPaths hwant))
  · exact hcome _ hwant (hpath hthere).1 (hpath hthere).2

/-- What a file imports afterwards it imported before, or a path that the replacement lists reads
back as it. -/
theorem mem_importPaths_of_updateImports (h : file.IsFile) (log : EditLog)
    (hp : p ∈ (r.updateImports c file log).1.importPaths) :
    p ∈ file.importPaths ∨ ∃ b ∈ r.wanted, ImportPath.unquote? (Quoted.string b.path) = some p := by
  rw [updateImports_eq] at hp
  obtain ⟨hfile, hsublist, -⟩ := importPaths_foldl_dropNext (c := c) (r.incomingNames c file)
    (r.droppedPaths c)
    (s := (file, log, false)) h
  obtain ⟨-, -, -, honly⟩ := importPaths_foldl_ensureNext (r := r) (r.wantedImports c) hfile
  refine (honly p hp).imp (fun hbefore => hsublist.subset hbefore) ?_
  rintro ⟨w, hw, hreads⟩
  obtain ⟨b, hb, rfl⟩ := List.mem_map.mp hw
  exact ⟨b, hb, hreads⟩

/-- Where the imports that the replacement lists are there already, none comes. -/
theorem importPaths_updateImports_sublist (h : file.IsFile) (log : EditLog)
    (hthere : ∀ b ∈ r.wanted, b.path ∈ file.importPaths) :
    (r.updateImports c file log).1.importPaths.Sublist file.importPaths := by
  rw [updateImports_eq]
  obtain ⟨hfile, hsublist, hstay⟩ := importPaths_foldl_dropNext (c := c) (r.incomingNames c file)
    (r.droppedPaths c)
    (s := (file, log, false)) h
  rw [importPaths_foldl_ensureNext_eq hfile fun w hw => ?_]
  · exact hsublist
  · obtain ⟨b, hb, rfl⟩ := List.mem_map.mp hw
    exact .inr (hstay _ (hthere b hb) (notMem_droppedPaths hw))

/-! ### Recipes -/

theorem importPaths_finish (h : file.IsFile) (hfix : opts.fixImports = true) {count : Nat}
    (hcount : count > 0 ∨ r.isBodyless = true) :
    (r.finish c count file log opts).file.importPaths =
      (r.updateImports c file log).1.importPaths := by
  rw [finish_eq, if_pos (by simpa using hcount)]
  dsimp only
  rw [importsDone, if_pos hfix]
  exact Node.importPaths_congr (importSpecs_updatePackage (editsKeep_isFile.updateImports h log) _)

theorem walkFile_of_isBodyless (h : r.isBodyless = true) (base : Captures) (file : Node)
    (log : EditLog) :
    r.walkFile base file log = (file, ⟨log, 0, none, none⟩) := by
  unfold isBodyless at h
  split at h
  · rename_i hbody
    simp only [walkFile, hbody]
  · cases h

/-- Whether a recipe finds its header in a file and comes to replacing something there, or has
nothing but imports or the package clause to replace. -/
def Takes (r : Recipe) (file : Node) (log : EditLog) (opts : Options) : Prop :=
  (r.apply file log opts).isEffective = true ∨ r.isBodyless = true ∧
  (r.matchHeader? file).isSome = true

/-- A recipe that takes brings the imports of the walked file into line. -/
theorem importPaths_apply {text : List Char} {rs : List Recipe}
    (hrs : compilePatchFile text = .ok rs) (hr : r ∈ rs) (h : file.IsFile)
    (hfix : opts.fixImports = true) (htakes : r.Takes file log opts) :
    ∃ base c, r.matchHeader? file = some base ∧ (r.walkFile base file log).1.IsFile ∧
      (r.apply file log opts).file.importPaths =
        (r.updateImports c (r.walkFile base file log).1
          (r.walkFile base file log).2.log).1.importPaths := by
  obtain ⟨p, hp, hcompile⟩ := exists_patch_of_mem hrs hr
  cases hbase : r.matchHeader? file with
  | none =>
    have happly : r.apply file log opts = ⟨.ok 0, file, log⟩ := by simp only [apply, hbase]
    simp [Takes, happly, hbase, Outcome.isEffective] at htakes
  | some base =>
    have hwalked : (r.walkFile base file log).1.IsFile :=
      walkFile_isFile (Patch.isSound_of_compile hp hcompile) (matchHeader?_conform hbase) h log
    cases hfailure : (r.walkFile base file log).2.failure with
    | some e =>
      have happly : r.apply file log opts =
          ⟨.error e, (r.walkFile base file log).1, (r.walkFile base file log).2.log⟩ := by
        simp only [apply, hbase, hfailure]
      rcases htakes with heffective | ⟨hbodyless, -⟩
      · rw [happly] at heffective
        cases heffective
      · rw [walkFile_of_isBodyless hbodyless] at hfailure
        cases hfailure
    | none =>
      have happly : r.apply file log opts =
          r.finish ((r.walkFile base file log).2.last.getD base.visible)
          (r.walkFile base file log).2.count (r.walkFile base file log).1
          (r.walkFile base file log).2.log opts := by
        simp only [apply, hbase, hfailure]
      refine ⟨base, (r.walkFile base file log).2.last.getD base.visible, rfl, hwalked, ?_⟩
      rw [happly]
      refine importPaths_finish hwalked hfix ?_
      rcases htakes with heffective | ⟨hbodyless, -⟩
      · by_contra hidle
        obtain ⟨hcount, hbody⟩ := not_or.mp hidle
        rw [happly, finish_eq, if_neg (by simpa using hidle)] at heffective
        simp [Outcome.isEffective, Nat.eq_zero_of_not_pos hcount] at heffective
      · exact .inr hbodyless

/-- **The imports that the replacement lists are there afterwards**, if their paths are plain where
they have to come, and a recipe that does not spare the imports takes none away that does not come
again.  **A recipe of nothing but imports then adds none the second time.** -/
theorem apply_importPaths {text : List Char} {rs : List Recipe}
    (hrs : compilePatchFile text = .ok rs) (hr : r ∈ rs) (hkind : file.kind = .file)
    (hfile : file.tree.conforms = true) (hfix : opts.fixImports = true)
    (hcome : r.sparesImports = true → (r.matchHeader? file).isSome = true →
      ∀ b ∈ r.wanted, b.path ∉ file.importPaths → ImportPath.IsPlain b.path)
    (hdecls : r.sparesImports = false → ∀ base, r.matchHeader? file = some base →
      ∀ b ∈ r.wanted, b.path ∉ (r.walkFile base file log).1.importPaths →
        b.path ∉ r.matched.map (·.path) ∧ ImportPath.IsPlain b.path) :
    (r.Takes file log opts → ∀ b ∈ r.wanted, b.path ∈ (r.apply file log opts).file.importPaths) ∧
      (r.isBodyless = true → ∀ log',
        (r.apply (r.apply file log opts).file log' opts).file.importPaths.Sublist
          (r.apply file log opts).file.importPaths) := by
  obtain ⟨p, hp, hcompile⟩ := exists_patch_of_mem hrs hr
  have hlists : r.Takes file log opts →
      ∀ b ∈ r.wanted, b.path ∈ (r.apply file log opts).file.importPaths := by
    intro htakes b hb
    obtain ⟨base, c, hbase, hwalked, hpaths⟩ := importPaths_apply hrs hr ⟨hkind, hfile⟩ hfix htakes
    rw [hpaths]
    refine mem_importPaths_updateImports hwalked _ hb fun habsent => ?_
    cases hspares : r.sparesImports with
    | false => exact hdecls hspares base hbase b hb habsent
    | true =>
      -- the header has found the imports that the pattern lists, and the walk has left them there
      rw [Node.importPaths_congr (importSpecs_walkFile_of_spares hrs hr hspares ⟨hkind, hfile⟩ base
        log)] at habsent
      refine ⟨fun hmatched => habsent ?_, hcome hspares (by rw [hbase]; rfl) b hb habsent⟩
      obtain ⟨a, ha, hpath⟩ := List.mem_map.mp hmatched
      obtain ⟨i, hi⟩ := settled_of_matchHeader? hbase a ha
      rw [← hpath, Node.mem_importPaths, FileImport.isPresent_eq, hi.found]
      rfl
  refine ⟨hlists, fun hbodyless log' => ?_⟩
  cases hagain : r.matchHeader? (r.apply file log opts).file with
  | none =>
    have hidle : r.apply (r.apply file log opts).file log' opts =
        ⟨.ok 0, (r.apply file log opts).file, log'⟩ := by
      rw [apply, hagain]
    rw [hidle]
  | some base' =>
    have hheader : (r.matchHeader? file).isSome = true := by
      cases hbase : r.matchHeader? file with
      | none =>
        have hidle : r.apply file log opts = ⟨.ok 0, file, log⟩ := by rw [apply, hbase]
        rw [hidle, hbase] at hagain
        cases hagain
      | some base => rfl
    have hafter : (r.apply file log opts).file.IsFile :=
      apply_isFile (Patch.isSound_of_compile hp hcompile) ⟨hkind, hfile⟩ log opts
    have htakes : r.Takes (r.apply file log opts).file log' opts :=
      .inr ⟨hbodyless, by rw [hagain]; rfl⟩
    obtain ⟨base, c, -, -, hpaths⟩ := importPaths_apply hrs hr hafter hfix htakes
    rw [walkFile_of_isBodyless hbodyless] at hpaths
    rw [hpaths]
    exact importPaths_updateImports_sublist hafter log' (hlists (.inr ⟨hbodyless, hheader⟩))

/-- Here a recipe of nothing but imports adds one. -/
theorem apply_importPaths_added :
    ∃ r file,
      compilePatchFile "@@\n@@\n import \"fmt\"\n+import \"os\"\n".toList = .ok [r] ∧
      parseFile .code "package p\n\nimport \"fmt\"\n".toList = .ok file ∧
      file.importPaths = ["fmt"] ∧ "os" ∈ (r.apply file .empty .default).file.importPaths ∧
      (r.apply (r.apply file .empty .default).file .empty .default).file.importPaths.Sublist
        (r.apply file .empty .default).file.importPaths := by
  have hpasses : passes "@@\n@@\n import \"fmt\"\n+import \"os\"\n" "package p\n\nimport \"fmt\"\n"
      (fun r file =>
        r.sparesImports && file.kind == .file && file.tree.conforms && r.isBodyless &&
          r.wanted == [⟨"fmt", .own⟩, ⟨"os", .own⟩] && file.importPaths == ["fmt"] &&
          (r.matchHeader? file).isSome) = true := by
    decide +kernel
  obtain ⟨r, file, hrs, hfile, hcheck⟩ := exists_of_passes hpasses
  simp only [Bool.and_eq_true, beq_iff_eq] at hcheck
  obtain ⟨⟨⟨⟨⟨⟨hspares, hkind⟩, hconforms⟩, hbodyless⟩, hwanted⟩, hpaths⟩, hheader⟩ := hcheck
  have hplain : ∀ b ∈ r.wanted, ImportPath.IsPlain b.path := by
    rw [hwanted]
    decide
  have htakes : r.Takes file .empty .default := .inr ⟨hbodyless, hheader⟩
  have hfix : Options.default.fixImports = true := rfl
  obtain ⟨hlists, hagain⟩ := apply_importPaths hrs List.mem_cons_self hkind hconforms hfix
    (fun _ _ b hb _ => hplain b hb) (by simp [hspares])
  exact ⟨r, file, hrs, hfile, hpaths, hlists htakes ⟨"os", .own⟩ (by simp [hwanted]),
    hagain hbodyless .empty⟩

/-- **No other import comes**, for recipes that spare the imports: a file imports what it imported
before, and what paths of the replacement read back as.  So a path with escapes, once missing, stays
missing. -/
theorem mem_importPaths_of_apply {text : List Char} {rs : List Recipe}
    (hrs : compilePatchFile text = .ok rs) (hr : r ∈ rs) (hspares : r.sparesImports = true)
    (hkind : file.kind = .file) (hfile : file.tree.conforms = true) (hfix : opts.fixImports = true)
    (htakes : r.Takes file log opts) (hp : p ∈ (r.apply file log opts).file.importPaths) :
    p ∈ file.importPaths ∨ ∃ b ∈ r.wanted, ImportPath.unquote? (Quoted.string b.path) = some p := by
  obtain ⟨base, c, -, hwalked, hpaths⟩ := importPaths_apply hrs hr ⟨hkind, hfile⟩ hfix htakes
  rw [hpaths] at hp
  have hspecs := importSpecs_walkFile_of_spares hrs hr hspares ⟨hkind, hfile⟩ base log
  rw [← Node.importPaths_congr hspecs]
  exact mem_importPaths_of_updateImports hwalked _ hp

/-- Whether a recipe that takes leaves a file without an import that its replacement lists. -/
def Misses (patch text path : String) : Prop :=
  ∃ r file, compilePatchFile patch.toList = .ok [r] ∧ parseFile .code text.toList = .ok file ∧
    path ∈ r.wanted.map (·.path) ∧ (r.apply file .empty .default).isEffective = true ∧
    path ∉ (r.apply file .empty .default).file.importPaths

theorem misses_of_passes {patch text path : String}
    (h : passes patch text (fun r file =>
      (r.wanted.map (·.path)).contains path && (r.apply file .empty .default).isEffective &&
        !(r.apply file .empty .default).file.importPaths.contains path) = true) :
        Misses patch text path := by
  obtain ⟨r, file, hrs, hfile, hcheck⟩ := exists_of_passes h
  simp only [Bool.and_eq_true, Bool.not_eq_true', List.contains_iff_mem] at hcheck
  exact ⟨r, file, hrs, hfile, hcheck.1.1, hcheck.1.2, by simpa using hcheck.2⟩

/-- A path with a backslash is escaped, so it is not the one that comes; and an import on both sides
of a patch is not added where the walk takes its declaration away. -/
theorem apply_importPaths_missed :
    Misses "@@\n@@\n import \"fmt\"\n+import \"a\\tb\"\n" "package p\n\nimport \"fmt\"\n" "a\\tb" ∧
      Misses "@@\n@@\n import \"x\"\n\n-var a int\n-import \"x\"\n"
      "package p\n\nvar a int\nimport \"x\"\n"
        "x" := by
  constructor
  · apply misses_of_passes
    decide +kernel
  · apply misses_of_passes
    decide +kernel

/-- What comes instead of a path with a backslash comes again each time. -/
theorem apply_importPaths_again :
    ∃ r file, compilePatchFile "@@\n@@\n import \"fmt\"\n+import \"a\\tb\"\n".toList = .ok [r] ∧
      parseFile .code "package p\n\nimport \"fmt\"\n".toList = .ok file ∧ r.isBodyless = true ∧
      (r.apply file .empty .default).file.importPaths = ["a\\\\tb", "fmt"] ∧
      (r.apply (r.apply file .empty .default).file .empty .default).file.importPaths =
        ["a\\\\tb", "a\\\\tb", "fmt"] := by
  have hpasses : passes "@@\n@@\n import \"fmt\"\n+import \"a\\tb\"\n"
      "package p\n\nimport \"fmt\"\n"
      (fun r file => r.isBodyless && (r.apply file .empty .default).file.importPaths ==
        ["a\\\\tb", "fmt"] &&
        (r.apply (r.apply file .empty .default).file .empty .default).file.importPaths ==
          ["a\\\\tb", "a\\\\tb", "fmt"]) = true := by
    decide +kernel
  obtain ⟨r, file, hrs, hfile, hcheck⟩ := exists_of_passes hpasses
  simp only [Bool.and_eq_true, beq_iff_eq] at hcheck
  exact ⟨r, file, hrs, hfile, hcheck.1.1, hcheck.1.2, hcheck.2⟩

end Recipe

end Graft
