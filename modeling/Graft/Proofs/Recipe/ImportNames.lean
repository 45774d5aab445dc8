import Graft.Proofs.Recipe.ImportList
import Graft.Proofs.Recipe.Search

/-! # Names that imports provide

Selectors use a package by the name that its import provides (`Node.Provides`).  A recipe of
expressions or statements leaves the imports of a file alone while it walks
(`Recipe.importSpecs_walkFile`).  What it found out about them in the header is still known to the
captures of its last match (`Recipe.settled_of_matchHeader?`, `Recipe.IsMatch.remembers`), so
an import is removed under the name that the file uses for it.  Imports are then removed one after
another, and a name stays provided or unused or is about to come (`Recipe.foldl_dropNext`); after
that they are renamed or added one after another, and a name stays provided or unused or is still to
come (`Recipe.foldl_ensureNext`).  In the end nothing is to come any more.

Only removing asks whether a name is in use.  Renaming does not, and a name left to an import that
is about to come is lost if the import never comes (`Recipe.apply_provides_lost`).
-/

namespace Graft

/-- Whether some import of a file provides a name. -/
def Node.Provides (file : Node) (name : String) : Prop := ∃ i ∈ file.imports, i.provided = name

/-- Whether no selector of a file uses a name without an import that provides it. -/
def Node.Serves (file : Node) (name : String) : Prop := file.Provides name ∨ file.tree.Unused name

theorem Node.Serves.provides {file : Node} {name : String} (h : file.Serves name)
    (hused : file.usesName name = true) : file.Provides name := by
  refine h.resolve_right fun hunused => ?_
  rw [Node.usesName_eq_false.mpr hunused] at hused
  cases hused

/-! ### Walks and imports -/

section Walk

variable {visit : Visit}

/-- A walk leaves the fields alone that hold no code. -/
theorem getElem?_sweepFields {i : Nat} (fs : List Field) (ts : List Tree) (pass : Pass)
    (hi : ∀ f ∈ fs[i]?, f.slot.holdsCode = false) :
    (sweepFields visit fs ts pass).1[i]? = ts[i]? := by
  match fs, ts, i with
  | [], _, _ => simp [sweepFields]
  | _ :: _, [], _ => rfl
  | f :: fs, t :: ts, 0 =>
    rw [sweepFields, hi f rfl]
    rfl
  | f :: fs, t :: ts, i + 1 =>
    rw [sweepFields]
    exact getElem?_sweepFields fs ts _ hi

theorem isImportDecl_sweepFields (k : Kind) (fs : List Tree) (pass : Pass) :
    Node.isImportDecl ⟨k, (sweepFields visit k.fields fs pass).1⟩ = Node.isImportDecl ⟨k, fs⟩ := by
  by_cases hk : k = .genDecl
  · subst hk
    have htok : Node.get ⟨.genDecl, (sweepFields visit Kind.genDecl.fields fs pass).1⟩ .tok =
        Node.get ⟨.genDecl, fs⟩ .tok := by
      have hget : (sweepFields visit Kind.genDecl.fields fs pass).1[2]? = fs[2]? :=
        getElem?_sweepFields Kind.genDecl.fields fs pass (by decide)
      exact congrArg (·.getD .nil) hget
    unfold Node.isImportDecl Node.tok?
    rw [htok]
  · simp only [Node.isImportDecl, beq_eq_false_iff_ne.mpr hk, Bool.false_and]

theorem Tree.importSpecs_node (k : Kind) (fs : List Tree) (h : Node.isImportDecl ⟨k, fs⟩ = false) :
    (Tree.node k fs).importSpecs = [] := by
  rw [Tree.importSpecs, if_neg (by simp [Tree.isImportDecl, Tree.node?, h])]

variable (hv : ∀ slot (n : Node) pass, n.kind.isA .decl = true → (visit slot n pass).1 = n)
include hv

theorem importSpecs_sweep (slot : Slot) {n : Node} (hn : n.kind.isA .decl = true) (pass : Pass) :
    (sweep visit slot n pass).1.importSpecs = n.tree.importSpecs := by
  obtain ⟨k, fs⟩ := n
  rw [Node.tree, sweep]
  split
  · rfl
  · rename_i himport
    have himport : Node.isImportDecl ⟨k, fs⟩ = false := by simpa using himport
    have hvisited := hv slot ⟨k, (sweepFields visit k.fields fs pass).1⟩
      (sweepFields visit k.fields fs pass).2 hn
    rw [Tree.importSpecs_node k fs himport]
    exact (congrArg Tree.importSpecs hvisited).trans
      (Tree.importSpecs_node k _ ((isImportDecl_sweepFields k fs pass).trans himport))

theorem importSpecs_sweepItems (slot : Slot) {ts : List Tree} (hts : ∀ t ∈ ts, t.FitsIn .decl)
    (pass : Pass) :
    (sweepItems visit slot ts pass).1.flatMap Tree.importSpecs = ts.flatMap Tree.importSpecs := by
  induction ts generalizing pass with
  | nil => rfl
  | cons t ts ih =>
    obtain ⟨⟨-, n, rfl, hn⟩, hrest⟩ := List.forall_mem_cons.mp hts
    rw [sweepItems]
    dsimp only
    rw [List.flatMap_cons, List.flatMap_cons, importSpecs_sweep hv slot hn, ih hrest]

/-- **A walk that leaves declarations alone leaves imports alone.** -/
theorem importSpecs_sweepFields {file : Node} (h : file.IsFile) (pass : Pass) :
    Node.importSpecs ⟨file.kind, (sweepFields visit file.kind.fields file.fields pass).1⟩ =
      file.importSpecs := by
  have hdecls := Node.conforms_list_items h.2 h.slot_decls
  obtain ⟨doc, package, name, ds, comments, rfl⟩ := h.exists_fields
  exact importSpecs_sweepItems hv (.node .decl) hdecls _

end Walk

/-- Wildcards aside, no expression is a declaration. -/
theorem Kind.isExpr_of_isDecl {k : Kind} (hdecl : k.isA .decl = true) (hdots : k ≠ .dots) :
    k.isA .expr = false := by
  revert hdecl hdots
  cases k <;> decide

namespace Recipe

variable {r : Recipe} {base c : Captures} {file : Node} {log : EditLog}

theorem visitContainer_of_field? {level : Level} {pattern : Pattern} {n : Node}
    (hn : level.field? n.kind = none) (slot : Slot) (pass : Pass) :
    r.visitContainer level pattern base slot n pass = (n.tree, pass) := by
  unfold visitContainer
  rw [show n.tree.node? = some n from rfl]
  dsimp only
  rw [hn]
  split <;> rfl

/-- **While a recipe of expressions or statements walks over a file, the imports stay as they
are.** -/
theorem importSpecs_walkFile {text : List Char} {p : Patch} (hp : p ∈ (PatchFile.read text).patches)
    (hr : p.compile = .ok r) (hlevel : r.level? ≠ some .decls) (h : file.IsFile) :
    (r.walkFile base file log).1.importSpecs = file.importSpecs := by
  unfold walkFile
  dsimp only
  split
  · rfl
  · rename_i pattern template hbody
    refine importSpecs_sweepFields (fun slot n pass hn => ?_) h _
    have hmatch : pattern.match? n base = none := by
      refine Option.eq_none_iff_forall_ne_some.mpr fun c hc => ?_
      obtain ⟨m, hm, hdots, hexpr⟩ := Patch.exists_expr_of_compile hp hr hbody hc
      rw [← Node.eq_of_tree hm] at hdots hexpr
      rw [Kind.isExpr_of_isDecl hn hdots] at hexpr
      cases hexpr
    unfold visitExpr
    rw [hmatch]
    split <;> rfl
  · rename_i level pattern template hbody
    obtain rfl : level = .stmts := by
      cases level with
      | stmts => rfl
      | decls => exact absurd (by rw [level?, hbody]) hlevel
    have hdecl (k : Kind) (hk : k.isA .decl = true) : Level.stmts.field? k = none := by
      revert hk
      cases k <;> decide
    have hspares (slot : Slot) (n : Node) (pass : Pass) (hn : n.kind.isA .decl = true) :
        (r.visitContainer .stmts pattern base slot n pass).1 = n := by
      rw [visitContainer_of_field? (hdecl _ hn)]
    have himports := importSpecs_sweepFields hspares h ⟨log, 0, none, none⟩
    obtain ⟨doc, package, name, ds, comments, rfl⟩ := h.exists_fields
    rw [Node.Framed.sweep ⟨name, .list ds, rfl⟩, visitContainer_of_field? rfl]
    exact himports

end Recipe

/-! ### What matches leave alone -/

/-- Whether a key is one that a header binds. -/
def Key.isOfHeader : Key → Bool
  | metavar _ | importName _ => true
  | _ => false

namespace Captures

theorem importName?_congr {c c' : Captures} {path : String}
    (h : c.get? (.importName path) = c'.get? (.importName path)) :
    c.importName? path = c'.importName? path := by
  unfold importName?
  rw [h]

theorem importName?_bind {c : Captures} {k : Key} {path : String} (h : k ≠ .importName path)
    (b : Binding) :
    (c.bind k b).importName? path = c.importName? path :=
  importName?_congr (by rw [get?_bind, if_neg h])

/-- Whether captures know what other captures know from a header. -/
structure Remembers (e c : Captures) : Prop where
  metavar : ∀ {name x}, c.metavar? name = some x → e.metavar? name = some x
  importName : ∀ path, e.importName? path = c.importName? path

namespace Remembers

variable {c e : Captures}

theorem refl (c : Captures) : c.Remembers c := ⟨id, fun _ => rfl⟩

theorem bind (h : e.Remembers c) {k : Key} (hk : k.isOfHeader = false) (b : Binding) :
    (e.bind k b).Remembers c where
  metavar {name x} hx := by
    rw [metavar?_bind (by rintro rfl; cases hk), h.metavar hx]
  importName path := by
    rw [importName?_bind (by rintro rfl; cases hk), h.importName]

theorem bind_metavar {name : String} (h : c.metavar? name = none) (b : Binding) :
    (c.bind (.metavar name) b).Remembers c where
  metavar {name' x} hx := by
    rw [metavar?_bind, hx]
    rintro ⟨⟩
    rw [h] at hx
    cases hx
  importName path := importName?_bind (by rintro ⟨⟩) b

theorem visible (h : e.Remembers c) : e.visible.Remembers c where
  metavar hx := by rw [metavar?_congr (get?_visible e _), h.metavar hx]
  importName path := by rw [importName?_congr (get?_visible e _), h.importName]

theorem of_match? {p : Pattern} (hp : ∀ k ∈ p.runKeys, k.isRun = true) {t : Tree}
    (h : p.match? t c = some e) :
    e.Remembers c where
  metavar hx := (p.match?_accounts hp h).stay hx
  importName path := by
    refine importName?_congr (p.matchWith_frame h fun hk => ?_)
    cases hp _ (p.mem_runKeys_of_mem_keys rfl hk)

end Remembers

end Captures

namespace Recipe

variable {r : Recipe} {base c : Captures} {file : Node} {log : EditLog}

theorem IsMatch.remembers
    (hr : ∀ pattern, r.body.pattern? = some pattern → ∀ k ∈ pattern.runKeys, k.isRun = true)
    (h : r.IsMatch base c) : c.Remembers base := by
  unfold IsMatch at h
  split at h
  · cases h
  · rename_i pattern template hbody
    obtain ⟨t, c₁, hmatch, rfl⟩ := h
    have hruns := hr pattern (by rw [hbody]; rfl)
    exact ((Captures.Remembers.of_match? hruns hmatch).bind rfl _).visible
  · rename_i level pattern template hbody
    obtain ⟨n, l, offset, c₁, -, hwindow, rfl⟩ := h
    obtain ⟨c₂, s, hmatch, rfl⟩ := exists_of_matchWindow? hwindow
    have hruns := hr pattern (by rw [hbody]; rfl)
    exact (((Captures.Remembers.of_match? hruns hmatch).bind rfl _).bind rfl _).visible

theorem rewindow_last {level : Level} {pattern : Pattern} {template : Template}
    (hbody : r.body = .window level pattern template) {l : Label} {n : Node}
    (hl : level.field? n.kind = some l) (rounds offset : Nat) {pass : Pass}
    (h : ∀ c ∈ pass.last, r.IsMatch base c) :
    ∀ c ∈ (r.rewindow l pattern base rounds offset n pass).2.last, r.IsMatch base c := by
  induction rounds using Nat.strongRecOn generalizing offset n pass with
  | ind rounds ih =>
    cases rounds with
    | zero => exact h
    | succ rounds =>
      rcases rewindow_cases hbody base hl rounds offset pass with
        ⟨hidle, -⟩ | ⟨c₁, hmatch, rounds', hle, offset', ⟨n', log, hl', hnext⟩ | ⟨e, -, hnext⟩⟩
      · rw [hidle]
        exact h
      · rw [hnext]
        refine ih rounds' (by omega) hl' offset' ?_
        rintro c ⟨⟩
        exact isMatch_window hbody hl hmatch
      · rw [hnext]
        exact ih rounds' (by omega) hl offset' h

/-- **The captures of the last replacement are those of a match.** -/
theorem isMatch_of_last (r : Recipe) (base : Captures) (file : Node) (log : EditLog) :
    ∀ c ∈ (r.walkFile base file log).2.last, r.IsMatch base c := by
  unfold walkFile
  dsimp only
  split
  · nofun
  · rename_i pattern template hbody
    refine sweepFields_keeps (Q := fun pass => ∀ c ∈ pass.last, r.IsMatch base c)
      (fun slot t pass hpass => ?_)
      _ _ nofun
    rcases visitExpr_cases r pattern base slot t pass with
      ⟨hidle, -⟩ | ⟨c₁, hmatch, ⟨log, hadvance⟩ | ⟨e, -, hreject⟩⟩
    · rw [hidle]
      exact hpass
    · rw [hadvance]
      rintro c ⟨⟩
      exact isMatch_expr hbody hmatch
    · rw [hreject]
      exact hpass
  · rename_i level pattern template hbody
    refine sweep_keeps (Q := fun pass => ∀ c ∈ pass.last, r.IsMatch base c)
      (fun slot t pass hpass => ?_)
      _ _ nofun
    unfold visitContainer
    split
    · exact hpass
    · split
      · exact hpass
      · split
        · exact hpass
        · exact rewindow_last hbody ‹_› _ _ hpass

/-! ### Headers -/

/-- Whether the listing of an import gives it a name. -/
def Gives (c : Captures) (clause : ImportClause) (name : String) : Prop :=
  match clause.givenName with
  | .own => name = ImportPath.packageName clause.path
  | .name s => name = s
  | .metavar m => ∃ v s, c.metavar? m = some (v, s) ∧ v.node?.bind (·.name?) = some name

theorem Gives.mono {e : Captures} {clause : ImportClause} {name : String} (h : Gives c clause name)
    (he : ∀ {m x}, c.metavar? m = some x → e.metavar? m = some x) : Gives e clause name := by
  unfold Gives at h ⊢
  cases hgiven : clause.givenName with
  | own | name s =>
    rw [hgiven] at h
    exact h
  | metavar m =>
    rw [hgiven] at h
    obtain ⟨v, s, hv, hname⟩ := h
    exact ⟨v, s, he hv, hname⟩

/-- What a listing gives is what the replacement wants. -/
theorem Gives.wantedName {clause : ImportClause} {name : String} (h : Gives c clause name) :
    (wantedName c clause).getD (ImportPath.packageName clause.path) = name := by
  unfold Gives at h
  unfold Recipe.wantedName
  cases hgiven : clause.givenName with
  | own | name s =>
    rw [hgiven] at h
    exact h.symm
  | metavar m =>
    rw [hgiven] at h
    obtain ⟨v, s, hv, hname⟩ := h
    dsimp only
    rw [hv, Option.bind_some, hname, Option.getD_some]

/-- Matching one import of a pattern, step by step. -/
theorem exists_of_matchImport? {imports : List FileImport} {clause : ImportClause} {e : Captures}
    (h : matchImport? imports c clause = some e) :
    ∃ found c₁, imports.find? (·.path == clause.path) = some found ∧ c₁.Remembers c ∧
      Gives c₁ clause (found.name.getD (ImportPath.packageName clause.path)) ∧
      e = c₁.bind (.importName clause.path)
      (.name (found.name.getD (ImportPath.packageName clause.path))) := by
  unfold matchImport? at h
  obtain ⟨found, hfound, h⟩ := Option.bind_eq_some_iff.mp h
  extract_lets name jp at h
  have hsame {q : Prop} [Decidable q] (hq : q → Gives c clause name)
      (h : (if q then do let c ← some c; jp c else do let c ← none; jp c) = some e) :
      Gives c clause name ∧ e = c.bind (.importName clause.path) (.name name) := by
    split at h
    · rename_i hmet
      cases h
      exact ⟨hq hmet, rfl⟩
    · cases h
  unfold Gives at hsame ⊢
  cases hgiven : clause.givenName with
  | own | name s =>
    simp only [hgiven] at h hsame
    exact ⟨found, c, hfound, .refl c, hsame beq_iff_eq.mp h⟩
  | metavar m =>
    simp only [hgiven] at h hsame
    split at h
    · rename_i v s hv
      exact ⟨found, c, hfound, .refl c, hsame (fun hq => ⟨v, s, hv, beq_iff_eq.mp hq⟩) h⟩
    · rename_i hfree
      cases h
      refine ⟨found, _, hfound, .bind_metavar hfree _,
        ⟨.ident found.namePos name, (Tree.ident found.namePos name).span, ?_, rfl⟩, rfl⟩
      exact Captures.metavar?_of_get? (by rw [Captures.get?_bind, if_pos rfl])

/-- What captures know from a header about an import that it lists: the name under which the file
uses it, which is the one that the listing gives. -/
structure Settled (file : Node) (c : Captures) (clause : ImportClause) (i : Imported) : Prop where
  found : file.import? clause.path = some i
  name : c.importName? clause.path = some i.provided
  gives : Gives c clause i.provided

namespace Settled

variable {e : Captures} {clause : ImportClause} {i : Imported}

theorem remembers (h : Settled file c clause i) (he : e.Remembers c) : Settled file e clause i :=
  ⟨h.found, by rw [he.importName, h.name], h.gives.mono he.metavar⟩

theorem of_imports {file' : Node} (h : Settled file c clause i)
    (himports : file'.imports = file.imports) :
    Settled file' c clause i := ⟨(Node.import?_congr himports _).trans h.found, h.name, h.gives⟩

/-- Finding the name of an import out anew brings nothing else. -/
theorem bind (h : Settled file c clause i) {path : String} {j : Imported}
    (hj : file.import? path = some j) :
    Settled file (c.bind (.importName path) (.name j.provided)) clause i := by
  refine ⟨h.found, ?_, ?_⟩
  · by_cases hpath : path = clause.path
    · subst hpath
      rw [h.found] at hj
      cases hj
      rw [Captures.importName?, Captures.get?_bind, if_pos rfl]
    · rw [Captures.importName?_bind (by rintro ⟨⟩; exact hpath rfl), h.name]
  · refine h.gives.mono fun {m x} hx => ?_
    rw [Captures.metavar?_bind (by rintro ⟨⟩), hx]

end Settled

/-- One import of a pattern is settled, and those settled before stay so. -/
theorem matchImport?_settles {clause : ImportClause} {e : Captures}
    (h : matchImport? (FileImport.ofFile file) c clause = some e) :
    (∃ i, Settled file e clause i) ∧ ∀ clause' i', Settled file c clause' i' →
      Settled file e clause' i' := by
  obtain ⟨found, c₁, hfound, hremembers, hgives, rfl⟩ := exists_of_matchImport? h
  have hi : file.import? clause.path = some found.imported := by
    rw [← FileImport.map_find?, FileImport.find?, hfound, Option.map_some]
  have hname : found.name.getD (ImportPath.packageName clause.path) = found.imported.provided := by
    rw [← Node.path_of_import? hi]
    rfl
  rw [hname] at hgives ⊢
  refine ⟨⟨found.imported, hi, ?_, hgives.mono fun {m x} hx => ?_⟩, fun clause' i' h' =>
    (h'.remembers hremembers).bind hi⟩
  · rw [Captures.importName?, Captures.get?_bind, if_pos rfl]
  · rw [Captures.metavar?_bind (by rintro ⟨⟩), hx]

/-- **A header that is met settles all imports that the pattern lists.** -/
theorem settled_of_matchHeader? (h : r.matchHeader? file = some base) :
    ∀ clause ∈ r.matched, ∃ i, Settled file base clause i := by
  have hfold (clauses : List ImportClause) {c : Captures}
      (hc : clauses.foldlM (matchImport? (FileImport.ofFile file)) c = some base) :
      (∀ clause ∈ clauses, ∃ i, Settled file base clause i) ∧
        ∀ clause' i', Settled file c clause' i' → Settled file base clause' i' := by
    induction clauses generalizing c with
    | nil =>
      cases hc
      exact ⟨nofun, fun _ _ => id⟩
    | cons clause clauses ih =>
      rw [List.foldlM_cons] at hc
      obtain ⟨c₁, hc₁, hc⟩ := Option.bind_eq_some_iff.mp hc
      obtain ⟨⟨i, hi⟩, hstay⟩ := matchImport?_settles hc₁
      obtain ⟨hall, hstay'⟩ := ih hc
      exact ⟨List.forall_mem_cons.mpr ⟨⟨i, hstay' _ _ hi⟩, hall⟩,
        fun clause' i' h' => hstay' _ _ (hstay _ _ h')⟩
  unfold matchHeader? at h
  extract_lets jp at h
  split at h
  · obtain ⟨u, -, h⟩ := Option.bind_eq_some_iff.mp h
    exact (hfold _ h).1
  · exact (hfold _ h).1

/-! ### Edits one after another -/

/-- Removing an import touches no other path.  A name goes with the import only if nothing uses it
any more or some import about to be added provides it. -/
theorem dropImport_step (h : file.IsFile) (incoming : List String) (log : EditLog) {path : String}
    (hsettled : ∀ i, file.import? path = some i → c.importName? path = some i.provided) :
    (∀ p ≠ path, (dropImport c incoming file log path).1.import? p = file.import? p) ∧
      ∀ name, name ≠ "_" → name ≠ "." → file.Provides name →
        (dropImport c incoming file log path).1.Provides name ∨ file.tree.Unused name ∨
        name ∈ incoming := by
  unfold dropImport
  dsimp only
  split
  · exact ⟨fun _ _ => rfl, fun name _ _ hname => .inl hname⟩
  · rename_i hdrop
    cases he : removeImport? file path with
    | none => exact ⟨fun _ _ => rfl, fun name _ _ hname => .inl hname⟩
    | some e =>
      obtain ⟨i, hi, hspliced⟩ := spliced_removeImport? h he
      have hpath : ∀ j ∈ [i], j.path = path :=
        List.forall_mem_singleton.mpr (Node.path_of_import? hi)
      refine ⟨fun p hp => hspliced.import?_eq hpath (List.forall_mem_nil _) hp, ?_⟩
      rintro name hblank hdot ⟨j, hj, rfl⟩
      rcases hspliced.mem_or_mem hj with hj | hj
      · obtain rfl := List.mem_singleton.mp hj
        rw [hsettled j hi, Option.getD_some] at hdrop
        have hgone : j.provided ∈ incoming ∨ file.usesName j.provided = false := by
          simpa [hblank, hdot, or_iff_not_imp_left] using hdrop
        exact .inr (hgone.symm.imp_left Node.usesName_eq_false.mp)
      · exact .inl ⟨j, hj, rfl⟩

/-- Seeing to an import touches no other path.  A name goes only by renaming, and then the new one
comes. -/
theorem ensureImport_step (h : file.IsFile) (log : EditLog) {path : String}
    (hreads : ImportPath.unquote? (Quoted.string path) = some path) (given : Option String) :
    (∀ p ≠ path, (r.ensureImport file log path given).1.import? p = file.import? p) ∧
    (∀ name, file.Provides name → (r.ensureImport file log path given).1.Provides name ∨
      r.matched.any (·.path == path) = true ∧
      (∃ i, file.import? path = some i ∧ i.provided = name) ∧
        (r.ensureImport file log path given).1.Provides
        (given.getD (ImportPath.packageName path))) ∧
    (r.matched.any (·.path == path) = false → file.import? path = none →
      (r.ensureImport file log path given).1.Provides
      (given.getD (ImportPath.packageName path))) := by
  have hnew : ∀ j ∈ [(⟨path, given⟩ : Imported)], j.path = path := List.forall_mem_singleton.mpr rfl
  unfold ensureImport
  split
  · rename_i hmatched
    rw [hmatched]
    cases he : renameImport? file path given with
    | none => exact ⟨fun _ _ => rfl, fun name hname => .inl hname, nofun⟩
    | some e =>
      obtain ⟨i, hi, hspliced⟩ := spliced_renameImport? h he
      have hpath : ∀ j ∈ [i], j.path = path :=
        List.forall_mem_singleton.mpr (Node.path_of_import? hi)
      refine ⟨fun p hp => hspliced.import?_eq hpath hnew hp, ?_, nofun⟩
      rintro name ⟨j, hj, rfl⟩
      rcases hspliced.mem_or_mem hj with hj | hj
      · obtain rfl := List.mem_singleton.mp hj
        exact .inr ⟨rfl, ⟨j, hi, rfl⟩, ⟨path, given⟩, hspliced.mem_of_mem_into List.mem_cons_self,
          rfl⟩
      · exact .inl ⟨j, hj, rfl⟩
  · split
    · rename_i hpresent
      rw [FileImport.isPresent_eq] at hpresent
      refine ⟨fun _ _ => rfl, fun name hname => .inl hname, fun _ habsent => ?_⟩
      rw [habsent] at hpresent
      cases hpresent
    · have hspliced := spliced_addImport h path given
      rw [imported?_importSpecTree hreads, Option.toList_some] at hspliced
      refine ⟨fun p hp => hspliced.import?_eq (List.forall_mem_nil _) hnew hp, ?_,
        fun _ _ => ⟨⟨path, given⟩, hspliced.mem_of_mem_into List.mem_cons_self, rfl⟩⟩
      rintro name ⟨j, hj, rfl⟩
      exact .inl ⟨j, (hspliced.mem_or_mem hj).resolve_left nofun, rfl⟩

/-- The imports that the replacement lists, with the names it gives them. -/
def wantedImports (r : Recipe) (c : Captures) : List (String × Option String) :=
  r.wanted.map fun clause => (clause.path, wantedName c clause)

/-- The names of the imports that a file does not have yet. -/
def incomingNames (r : Recipe) (c : Captures) (file : Node) : List String :=
  ((r.wantedImports c).filter fun (path, _) => !FileImport.isPresent file path).map
    fun (path, name) => name.getD (ImportPath.packageName path)

/-- The paths that only the pattern lists. -/
def droppedPaths (r : Recipe) (c : Captures) : List String :=
  (r.matched.map (·.path)).filter fun path => !(r.wantedImports c).any (·.1 == path)

/-- Paths that the replacement lists are not dropped. -/
theorem notMem_droppedPaths {w : String × Option String} (hw : w ∈ r.wantedImports c) :
    w.1 ∉ r.droppedPaths c := by
  intro hdropped
  have hlisted := (List.mem_filter.mp hdropped).2
  rw [Bool.not_eq_true', List.any_eq_false] at hlisted
  exact hlisted w hw (beq_self_eq_true _)

/-- One import that only the pattern lists. -/
def dropNext (c : Captures) (incoming : List String) (s : Node × EditLog × Bool) (path : String) :
    Node × EditLog × Bool :=
  let next := dropImport c incoming s.1 s.2.1 path
  (next.1, next.2.1, s.2.2 || next.2.2)

/-- One import that the replacement lists. -/
def ensureNext (r : Recipe) (s : Node × EditLog × Bool) (w : String × Option String) :
    Node × EditLog × Bool :=
  let next := r.ensureImport s.1 s.2.1 w.1 w.2
  (next.1, next.2.1, s.2.2 || next.2.2)

theorem updateImports_eq (r : Recipe) (c : Captures) (file : Node) (log : EditLog) :
    r.updateImports c file log = (r.wantedImports c).foldl r.ensureNext
      ((r.droppedPaths c).foldl (dropNext c (r.incomingNames c file)) (file, log, false)) := rfl

section Names

variable {name : String}

/-- **Removing imports leaves a name served or incoming.** -/
theorem foldl_dropNext (incoming : List String) (hblank : name ≠ "_") (hdot : name ≠ ".")
    {paths : List String} (hpaths : paths.Nodup) {s : Node × EditLog × Bool} (h : s.1.IsFile)
    (hsettled : ∀ path ∈ paths, ∀ i, s.1.import? path = some i →
      c.importName? path = some i.provided)
    (hname : s.1.Serves name ∨ name ∈ incoming) :
    (paths.foldl (dropNext c incoming) s).1.IsFile ∧
    (∀ p ∉ paths, (paths.foldl (dropNext c incoming) s).1.import? p = s.1.import? p) ∧
    ((paths.foldl (dropNext c incoming) s).1.Serves name ∨ name ∈ incoming) := by
  induction paths generalizing s with
  | nil => exact ⟨h, fun _ _ => rfl, hname⟩
  | cons path paths ih =>
    obtain ⟨hpath, hpaths⟩ := List.nodup_cons.mp hpaths
    obtain ⟨hhead, htail⟩ := List.forall_mem_cons.mp hsettled
    obtain ⟨hothers, hkeeps⟩ := dropImport_step h incoming s.2.1 hhead
    have hunused (hunused : s.1.tree.Unused name) : (dropNext c incoming s path).1.tree.Unused
        name :=
      (editsKeep_unused name).dropImport hunused incoming s.2.1 path
    have hnext : (dropNext c incoming s path).1.Serves name ∨ name ∈ incoming := by
      rcases hname with (hprovided | hfree) | hincoming
      · rcases hkeeps name hblank hdot hprovided with hprovided | hfree | hincoming
        · exact .inl (.inl hprovided)
        · exact .inl (.inr (hunused hfree))
        · exact .inr hincoming
      · exact .inl (.inr (hunused hfree))
      · exact .inr hincoming
    have hsettled' : ∀ p ∈ paths, ∀ i, (dropNext c incoming s path).1.import? p = some i →
        c.importName? p = some i.provided := by
      intro p hp i hi
      refine htail p hp i ?_
      rwa [← hothers p (by rintro rfl; exact hpath hp)]
    obtain ⟨hfile, hrest, hname'⟩ := ih (s := dropNext c incoming s path) hpaths
      (editsKeep_isFile.dropImport h incoming s.2.1 path) hsettled' hnext
    refine ⟨hfile, fun p hp => ?_, hname'⟩
    rw [List.mem_cons, not_or] at hp
    rw [List.foldl_cons, hrest p hp.2]
    exact hothers p hp.1

/-- **Seeing to imports leaves a name served** if no renaming takes it, or if the import that is to
provide it is still to come. -/
theorem foldl_ensureNext {ws : List (String × Option String)} (hws : (ws.map (·.1)).Nodup)
    (hreads : ∀ w ∈ ws, ImportPath.unquote? (Quoted.string w.1) = some w.1)
    {s : Node × EditLog × Bool} (h : s.1.IsFile)
    (hrenames : ∀ w ∈ ws, r.matched.any (·.path == w.1) = true → ∀ i, s.1.import? w.1 = some i →
      i.provided = name → w.2.getD (ImportPath.packageName w.1) = name)
    (hname : s.1.Serves name ∨ ∃ w ∈ ws, r.matched.any (·.path == w.1) = false ∧
      s.1.import? w.1 = none ∧ w.2.getD (ImportPath.packageName w.1) = name) :
    (ws.foldl r.ensureNext s).1.Serves name := by
  induction ws generalizing s with
  | nil =>
    rcases hname with hname | ⟨w, hw, -⟩
    · exact hname
    · cases hw
  | cons w ws ih =>
    obtain ⟨hw, hws⟩ := List.nodup_cons.mp hws
    obtain ⟨hread, hreads⟩ := List.forall_mem_cons.mp hreads
    obtain ⟨hrename, hrenames⟩ := List.forall_mem_cons.mp hrenames
    obtain ⟨hothers, hkeeps, hadds⟩ := ensureImport_step (r := r) h s.2.1 hread w.2
    have hother : ∀ v ∈ ws, (r.ensureNext s w).1.import? v.1 = s.1.import? v.1 :=
      fun v hv => hothers v.1 fun heq => hw (List.mem_map.mpr ⟨v, hv, heq⟩)
    refine ih hws hreads (editsKeep_isFile.ensureImport h s.2.1 w.1 w.2)
      (fun v hv hmatched i hi => ?_) ?_
    · rw [hother v hv] at hi
      exact hrenames v hv hmatched i hi
    · rcases hname with (hprovided | hfree) | ⟨v, hv, hunmatched, habsent, hgiven⟩
      · rcases hkeeps name hprovided with hprovided | ⟨hmatched, ⟨i, hi, hprovided⟩, hnew⟩
        · exact .inl (.inl hprovided)
        · rw [hrename hmatched i hi hprovided] at hnew
          exact .inl (.inl hnew)
      · exact .inl (.inr ((editsKeep_unused name).ensureImport hfree s.2.1 w.1 w.2))
      · rcases List.mem_cons.mp hv with rfl | hv
        · rw [← hgiven]
          exact .inl (.inl (hadds hunmatched habsent))
        · exact .inr ⟨v, hv, hunmatched, by rw [hother v hv, habsent], hgiven⟩

/-- **Bringing imports into line leaves a name served**, where no path is listed twice, the paths to
add read back, and no import that both sides list loses the name. -/
theorem serves_updateImports (h : file.IsFile) (hsettled : ∀ a ∈ r.matched, ∃ i, Settled file c a i)
    (hmatched : (r.matched.map (·.path)).Nodup) (hwanted : (r.wanted.map (·.path)).Nodup)
    (hreads : ∀ b ∈ r.wanted, ImportPath.unquote? (Quoted.string b.path) = some b.path)
    (hrenames : ∀ a ∈ r.matched, ∀ b ∈ r.wanted, a.path = b.path → a.givenName ≠ b.givenName →
      ∀ i ∈ file.import? a.path, i.provided ≠ name)
    (hblank : name ≠ "_") (hdot : name ≠ ".") (hname : file.Provides name) (log : EditLog) :
    (r.updateImports c file log).1.Serves name := by
  have hpaths : (r.wantedImports c).map (·.1) = r.wanted.map (·.path) := by
    rw [wantedImports, List.map_map]
    rfl
  have hlisted (path : String) (h : r.matched.any (·.path == path) = true) :
      ∃ a ∈ r.matched, a.path = path := by
    simpa using h
  have hdropped : (r.droppedPaths c).Nodup := hmatched.filter _
  have hknown : ∀ path ∈ r.droppedPaths c, ∀ i, file.import? path = some i →
      c.importName? path = some i.provided := by
    intro path hpath i hi
    obtain ⟨a, ha, rfl⟩ := List.mem_map.mp (List.mem_filter.mp hpath).1
    obtain ⟨j, hj⟩ := hsettled a ha
    rw [hj.found] at hi
    cases hi
    exact hj.name
  rw [updateImports_eq]
  obtain ⟨hfile, hothers, hname⟩ := foldl_dropNext (r.incomingNames c file) hblank hdot hdropped
    (s := (file, log, false)) h hknown (.inl (.inl hname))
  refine foldl_ensureNext (by rwa [hpaths]) (fun w hw => ?_) hfile
    (fun w hw hany i hi hprovided => ?_) ?_
  · obtain ⟨b, hb, rfl⟩ := List.mem_map.mp hw
    exact hreads b hb
  -- an import that both sides list: the replacement calls it as the file did, or it never gave the
  -- name
  · rw [hothers _ (notMem_droppedPaths hw)] at hi
    obtain ⟨b, hb, rfl⟩ := List.mem_map.mp hw
    obtain ⟨a, ha, hpath⟩ := hlisted _ hany
    obtain ⟨j, hj⟩ := hsettled a ha
    dsimp only at hi hpath ⊢
    rw [← hpath, hj.found] at hi
    cases hi
    by_cases hgiven : a.givenName = b.givenName
    · obtain rfl : a = b := by
        cases a
        cases b
        simp_all
      rw [hj.gives.wantedName, hprovided]
    · exact absurd hprovided (hrenames a ha b hb hpath hgiven i hj.found)
  · refine hname.imp_right fun hincoming => ?_
    -- an incoming import: the pattern does not list it, as the file does not have it
    obtain ⟨w, hw, hgiven⟩ := List.mem_map.mp hincoming
    obtain ⟨hw, habsent⟩ := List.mem_filter.mp hw
    have habsent : file.import? w.1 = none := by simpa [FileImport.isPresent_eq] using habsent
    refine ⟨w, hw, ?_, ?_, hgiven⟩
    · refine Bool.eq_false_iff.mpr fun hany => ?_
      obtain ⟨a, ha, hpath⟩ := hlisted _ hany
      obtain ⟨j, hj⟩ := hsettled a ha
      rw [← hpath, hj.found] at habsent
      cases habsent
    · rw [hothers _ (notMem_droppedPaths hw)]
      exact habsent

end Names

/-! ### Recipes -/

theorem importSpecs_updatePackage (h : file.IsFile) (log : EditLog) :
    (r.updatePackage file log).1.importSpecs = file.importSpecs := by
  unfold updatePackage
  split
  · split
    · rfl
    · obtain ⟨doc, package, name, ds, comments, rfl⟩ := h.exists_fields
      rfl
  · rfl

theorem serves_finish {name : String} {count : Nat} {opts : Options} (h : file.IsFile)
    (hname : file.Provides name) (himports : (r.updateImports c file log).1.Serves name) :
    (r.finish c count file log opts).file.Serves name := by
  rw [finish_eq]
  split
  · have hdone : (r.importsDone c file log opts).1.IsFile ∧
        (r.importsDone c file log opts).1.Serves name := by
      unfold importsDone
      split
      · exact ⟨editsKeep_isFile.updateImports h log, himports⟩
      · exact ⟨h, .inl hname⟩
    refine hdone.2.imp (fun hprovided => ?_) fun hfree =>
      (editsKeep_unused name).updatePackage hfree _
    dsimp only
    rw [Node.Provides, Node.imports_congr (importSpecs_updatePackage hdone.1 _)]
    exact hprovided
  · exact .inl hname

/-- After a walk that leaves the imports alone, they are still settled. -/
theorem settled_of_walkFile {text : List Char} {rs : List Recipe}
    (hrs : compilePatchFile text = .ok rs) (hr : r ∈ rs) (hbase : r.matchHeader? file = some base)
    (himports : (r.walkFile base file log).1.imports = file.imports) :
    ∀ a ∈ r.matched, ∃ i, Settled (r.walkFile base file log).1
      ((r.walkFile base file log).2.last.getD base.visible) a i := by
  have hlast : ((r.walkFile base file log).2.last.getD base.visible).Remembers base := by
    cases hlast : (r.walkFile base file log).2.last with
    | none => exact (Captures.Remembers.refl base).visible
    | some c =>
      exact (isMatch_of_last r base file log c hlast).remembers fun _ => isRun_of_mem hrs hr
  intro a ha
  obtain ⟨i, hi⟩ := settled_of_matchHeader? hbase a ha
  exact ⟨i, (hi.remembers hlast).of_imports himports⟩

/-- **The name of an import stays provided as long as a selector uses it**, for recipes of
expressions and statements whose sides list no path twice, whose added paths read back, and which
give the import of this name no other name. -/
theorem apply_provides {text : List Char} {rs : List Recipe} (hrs : compilePatchFile text = .ok rs)
    (hr : r ∈ rs) (hlevel : r.level? ≠ some .decls) (hkind : file.kind = .file)
    (hfile : file.tree.conforms = true)
    (hmatched : (r.matched.map (·.path)).Nodup) (hwanted : (r.wanted.map (·.path)).Nodup)
    (hreads : ∀ b ∈ r.wanted, ImportPath.unquote? (Quoted.string b.path) = some b.path)
    {name : String} (hrenames : ∀ a ∈ r.matched, ∀ b ∈ r.wanted, a.path = b.path →
      a.givenName ≠ b.givenName → ∀ i ∈ file.import? a.path, i.provided ≠ name)
    (hblank : name ≠ "_") (hdot : name ≠ ".") (hname : file.Provides name) (opts : Options)
    (hused : (r.apply file log opts).file.usesName name = true) :
    (r.apply file log opts).file.Provides name := by
  obtain ⟨p, hp, hcompile⟩ := exists_patch_of_mem hrs hr
  unfold apply at hused ⊢
  cases hbase : r.matchHeader? file with
  | none => exact hname
  | some base =>
    rw [hbase] at hused
    dsimp only at hused ⊢
    have himports : (r.walkFile base file log).1.imports = file.imports :=
      Node.imports_congr (importSpecs_walkFile hp hcompile hlevel ⟨hkind, hfile⟩)
    have hwalked : (r.walkFile base file log).1.Provides name := by
      rw [Node.Provides, himports]
      exact hname
    cases hfailure : (r.walkFile base file log).2.failure with
    | some e => exact hwalked
    | none =>
      rw [hfailure] at hused
      dsimp only at hused ⊢
      have hisFile : (r.walkFile base file log).1.IsFile :=
        walkFile_isFile (Patch.isSound_of_compile hp hcompile) (matchHeader?_conform hbase)
        ⟨hkind, hfile⟩ log
      have hsettled := settled_of_walkFile hrs hr hbase himports
      have hrenames' : ∀ a ∈ r.matched, ∀ b ∈ r.wanted, a.path = b.path →
          a.givenName ≠ b.givenName →
          ∀ i ∈ (r.walkFile base file log).1.import? a.path, i.provided ≠ name := by
        intro a ha b hb hpath hgiven
        rw [Node.import?_congr himports]
        exact hrenames a ha b hb hpath hgiven
      have hdone := serves_updateImports hisFile hsettled hmatched hwanted hreads
        hrenames' hblank hdot
        hwalked (r.walkFile base file log).2.log
      exact (serves_finish hisFile hwalked hdone).provides hused

/-- Here the pattern lists an import and the replacement does not, and another call still uses
it. -/
theorem apply_provides_in_use :
    ∃ r file,
      compilePatchFile "@@\n@@\n-import \"foo\"\n\n-foo.F()\n+g()\n".toList = .ok [r] ∧
      parseFile .code ("package p\n\nimport \"foo\"\n\nfunc f() \x7b\n" ++
        "\tfoo.F()\n\tfoo.G()\n\x7d\n").toList = .ok file ∧
      file.Provides "foo" ∧ (r.apply file .empty .default).file.usesName "foo" = true ∧
      (r.apply file .empty .default).file.Provides "foo" := by
  have hpasses : passes "@@\n@@\n-import \"foo\"\n\n-foo.F()\n+g()\n"
      ("package p\n\nimport \"foo\"\n\nfunc f() \x7b\n" ++ "\tfoo.F()\n\tfoo.G()\n\x7d\n")
      (fun r file =>
        r.level? != some .decls && file.kind == .file && file.tree.conforms &&
          decide (r.matched.map (·.path)).Nodup && r.wanted.isEmpty &&
          file.imports.any (·.provided == "foo") &&
          (r.apply file .empty .default).file.usesName "foo") =
      true := by decide +kernel
  obtain ⟨r, file, hrs, hfile, hcheck⟩ := exists_of_passes hpasses
  simp only [Bool.and_eq_true, beq_iff_eq, bne_iff_ne, decide_eq_true_eq, List.isEmpty_iff,
    List.any_eq_true] at hcheck
  obtain ⟨⟨⟨⟨⟨⟨hlevel, hkind⟩, hconforms⟩, hmatched⟩, hwanted⟩, hprovides⟩, hused⟩ := hcheck
  refine ⟨r, file, hrs, hfile, hprovides, hused, ?_⟩
  exact apply_provides hrs List.mem_cons_self hlevel hkind hconforms hmatched (by simp [hwanted])
    (by simp [hwanted]) (by simp [hwanted]) (by decide) (by decide) hprovides .default hused

/-- Whether a patch of expressions or statements takes away the last import that provides a name in
use. -/
def Loses (patch text name : String) : Prop :=
  ∃ r file, compilePatchFile patch.toList = .ok [r] ∧ parseFile .code text.toList = .ok file ∧
    r.level? ≠ some .decls ∧ file.Provides name ∧
    (r.apply file .empty .default).file.usesName name = true ∧
    ¬ (r.apply file .empty .default).file.Provides name

theorem loses_of_passes {patch text name : String}
    (h : passes patch text (fun r file =>
      r.level? != some .decls && file.imports.any (·.provided == name) &&
        (r.apply file .empty .default).file.usesName name &&
        (r.apply file .empty .default).file.imports.all (·.provided != name)) = true) :
    Loses patch text name := by
  obtain ⟨r, file, hrs, hfile, hcheck⟩ := exists_of_passes h
  simp only [Bool.and_eq_true, bne_iff_ne, beq_iff_eq, List.all_eq_true, List.any_eq_true] at hcheck
  obtain ⟨⟨⟨hlevel, hprovides⟩, hused⟩, hlost⟩ := hcheck
  refine ⟨r, file, hrs, hfile, hlevel, hprovides, hused, ?_⟩
  rintro ⟨i, hi, hname⟩
  exact hlost i hi hname

/-- A name in use is lost when its import gets another name, and also when it is left to a
second import of a path, which is never added. -/
theorem apply_provides_lost :
    Loses "@@\n@@\n-import a \"x\"\n+import b \"x\"\n\n-a.F\n+b.F\n"
        "package p\n\nimport a \"x\"\n\nvar v = a.F + a.G\n" "a" ∧
      Loses "@@\n@@\n-import b \"x\"\n+import a \"y\"\n+import b \"y\"\n\n-f\n+g\n"
        "package p\n\nimport b \"x\"\n\nvar v = f + b.G\n" "b" := by
  constructor
  · apply loses_of_passes
    decide +kernel
  · apply loses_of_passes
    decide +kernel

end Recipe

end Graft
