import Graft.Proofs.Recipe.Replacing
import Graft.Proofs.Result

/-! # What recipes leave alone in a file

A recipe may change the declarations of a file and the name in its package clause.  The comment
above the clause, its keyword and the list of comments are never touched (`Recipe.applyAll_framed`),
so a file begins where it did.
-/

namespace Graft

/-- Whether a node is a file with the given comment, keyword and list of comments. -/
def Node.Framed (doc package comments : Tree) (file : Node) : Prop :=
  ∃ name decls, file = ⟨.file, [doc, package, name, decls, comments]⟩

namespace Node.Framed

variable {doc package comments : Tree} {file : Node}

theorem kind (h : file.Framed doc package comments) : file.kind = .file := by
  obtain ⟨name, decls, rfl⟩ := h
  rfl

theorem set_decls (h : file.Framed doc package comments) (t : Tree) :
    (file.set .decls t).Framed doc package comments := by
  obtain ⟨name, decls, rfl⟩ := h
  exact ⟨name, t, rfl⟩

theorem set_name (h : file.Framed doc package comments) (t : Tree) :
    (file.set .name t).Framed doc package comments := by
  obtain ⟨name, decls, rfl⟩ := h
  exact ⟨t, decls, rfl⟩

theorem mapDecls? (h : file.Framed doc package comments) {f : List Tree → List Tree} {file' : Node}
    (hmap : file.mapDecls? f = some file') : file'.Framed doc package comments := by
  unfold Node.mapDecls? at hmap
  split at hmap
  · cases hmap
    exact h.set_decls _
  · cases hmap

/-- A walk visits the name and the declarations of a file. -/
theorem sweepFields (h : file.Framed doc package comments) (visit : Visit) (pass : Pass) :
    Framed doc package comments
      ⟨file.kind, (Graft.sweepFields visit file.kind.fields file.fields pass).1⟩ := by
  obtain ⟨name, decls, rfl⟩ := h
  exact ⟨_, _, rfl⟩

/-- A walk comes to the file itself last. -/
theorem sweep (h : file.Framed doc package comments) (visit : Visit) (slot : Slot) (pass : Pass) :
    sweep visit slot file pass =
      visit slot (⟨file.kind, (Graft.sweepFields visit file.kind.fields file.fields pass).1⟩ : Node)
        (Graft.sweepFields visit file.kind.fields file.fields pass).2 := by
  obtain ⟨name, decls, rfl⟩ := h
  rw [Node.tree, Graft.sweep, if_neg (by rintro ⟨⟩)]
  rfl

end Node.Framed

/-! ### What the edits of a header keep -/

/-- Whether the edits of imports and of the package clause keep a property of files. -/
structure Recipe.EditsKeep (P : Node → Prop) : Prop where
  remove {file : Node} {path : String} {e : FileEdit} :
    P file → removeImport? file path = some e → P e.file
  rename {file : Node} {path : String} {name : Option String} {e : FileEdit} :
    P file → renameImport? file path name = some e → P e.file
  add {file : Node} (path : String) (name : Option String) : P file →
    P (addImport file path name).file
  package {file : Node} (p : Pos) (name : String) : P file → P (file.set .name (.ident p name))

namespace Recipe.EditsKeep

variable {P : Node → Prop} {r : Recipe} {c : Captures} {file : Node}

theorem applyTo {edit : Option FileEdit} (he : ∀ e, edit = some e → P e.file) (h : P file)
    (log : EditLog) : P (FileEdit.applyTo edit file log).1 := by
  cases edit with
  | none => exact h
  | some e => exact he e rfl

theorem dropImport (hP : EditsKeep P) (h : P file) (incoming : List String) (log : EditLog)
    (path : String) :
    P (Recipe.dropImport c incoming file log path).1 := by
  unfold Recipe.dropImport
  dsimp only
  split
  · exact h
  · exact applyTo (fun e he => hP.remove h he) h log

theorem ensureImport (hP : EditsKeep P) (h : P file) (log : EditLog) (path : String)
    (name : Option String) :
    P (r.ensureImport file log path name).1 := by
  unfold Recipe.ensureImport
  split
  · exact applyTo (fun e he => hP.rename h he) h log
  · split
    · exact h
    · exact hP.add path name h

theorem updateImports (hP : EditsKeep P) (h : P file) (log : EditLog) :
    P (r.updateImports c file log).1 := by
  have folds {α : Type} {f : Node × EditLog × Bool → α → Node × EditLog × Bool}
      (hf : ∀ s a, P s.1 → P (f s a).1) (as : List α) {s : Node × EditLog × Bool} (hs : P s.1) :
      P (as.foldl f s).1 := by
    induction as generalizing s with
    | nil => exact hs
    | cons a as ih => exact ih (hf s a hs)
  unfold Recipe.updateImports
  refine folds ?_ _ (folds ?_ _ h)
  · rintro ⟨file, log, touched⟩ ⟨path, name⟩ h
    exact hP.ensureImport h log path name
  · rintro ⟨file, log, touched⟩ path h
    exact hP.dropImport h _ log path

theorem updatePackage (hP : EditsKeep P) (h : P file) (log : EditLog) :
    P (r.updatePackage file log).1 := by
  unfold Recipe.updatePackage
  split
  · split
    · exact h
    · exact hP.package _ _ h
  · exact h

theorem finish (hP : EditsKeep P) (h : P file) (count : Nat) (log : EditLog) (opts : Options) :
    P (r.finish c count file log opts).file := by
  have himports :
      P (if opts.fixImports then r.updateImports c file log else (file, log, false)).1 := by
    split
    · exact hP.updateImports h log
    · exact h
  unfold Recipe.finish
  dsimp only
  split
  · split
    · exact hP.updatePackage himports _
    · exact h
  · split
    · exact hP.updatePackage himports _
    · exact h

/-- What a walk keeps and the edits of a header keep, a recipe keeps. -/
theorem apply (hP : EditsKeep P) (h : P file) {log : EditLog}
    (hwalk : ∀ base, r.matchHeader? file = some base → P (r.walkFile base file log).1)
    (opts : Options) : P (r.apply file log opts).file := by
  unfold Recipe.apply
  split
  · exact h
  · rename_i base hbase
    dsimp only
    split
    · exact hwalk base hbase
    · exact hP.finish (hwalk base hbase) _ _ _

end Recipe.EditsKeep

namespace Recipe

open Node (Framed)

variable {r : Recipe} {base : Captures} {doc package comments : Tree} {file : Node}

/-! ### Walks -/

theorem rewindow_framed {level : Level} {pattern : Pattern} {template : Template}
    (hbody : r.body = .window level pattern template) {l : Label}
    (hl : level.field? .file = some l) (h : file.Framed doc package comments)
    (rounds offset : Nat) (pass : Pass) :
    (r.rewindow l pattern base rounds offset file pass).1.Framed doc package comments := by
  -- of the lists that recipes look for stretches in, a file has only its declarations
  have hdecls : l = .decls := by
    cases level with
    | stmts => cases hl
    | decls =>
      cases hl
      rfl
  induction rounds generalizing offset file pass with
  | zero => exact h
  | succ rounds ih =>
    rw [rewindow]
    dsimp only
    split
    · exact h
    · split
      · exact h
      · rename_i c₁ hmatch
        split
        · rename_i k fs log hnew
          have hl' : level.field? file.kind = some l := by
            rw [h.kind]
            exact hl
          obtain ⟨ts, hnode⟩ := node_of_replaceInto hbody hl' hmatch hnew
          have hframed : Framed doc package comments ⟨k, fs⟩ := by
            rw [hnode, hdecls]
            exact h.set_decls _
          split
          · exact hframed
          · exact ih hframed _ _
        · exact h
        · exact ih h _ _
        · split
          · exact h
          · exact ih h _ _

theorem visitContainer_framed {level : Level} {pattern : Pattern} {template : Template}
    (hbody : r.body = .window level pattern template) (h : file.Framed doc package comments)
    (slot : Slot) (pass : Pass) :
    ∃ file' : Node, (r.visitContainer level pattern base slot file pass).1 = file' ∧
      file'.Framed doc package comments := by
  unfold visitContainer
  rw [show file.tree.node? = some file from rfl]
  dsimp only
  split
  · exact ⟨file, rfl, h⟩
  · split
    · exact ⟨file, rfl, h⟩
    · rename_i l hl
      rw [h.kind] at hl
      exact ⟨_, rfl, rewindow_framed hbody hl h _ _ _⟩

theorem walkFile_framed (h : file.Framed doc package comments) (log : EditLog) :
    (r.walkFile base file log).1.Framed doc package comments := by
  unfold walkFile
  dsimp only
  split
  · exact h
  · exact h.sweepFields _ _
  · rename_i level pattern template hbody
    rw [h.sweep]
    obtain ⟨file', hfile', hframed⟩ := visitContainer_framed hbody
      (h.sweepFields (r.visitContainer level pattern base) ⟨log, 0, none, none⟩) (.node .file) _
    rw [hfile']
    exact hframed

/-! ### Recipes -/

theorem editsKeep_framed : EditsKeep (Framed doc package comments) where
  remove {file path e} h he := by
    unfold removeImport? at he
    obtain ⟨target, -, he⟩ := Option.bind_eq_some_iff.mp he
    obtain ⟨decl, -, he⟩ := Option.bind_eq_some_iff.mp he
    dsimp only at he
    split at he
    · obtain ⟨file', hfile', he⟩ := Option.bind_eq_some_iff.mp he
      cases he
      exact h.mapDecls? hfile'
    · obtain ⟨file', hfile', he⟩ := Option.bind_eq_some_iff.mp he
      cases he
      exact h.mapDecls? hfile'
  rename {file path name e} h he := by
    unfold renameImport? at he
    obtain ⟨target, -, he⟩ := Option.bind_eq_some_iff.mp he
    split at he
    · cases he
    · obtain ⟨file', hfile', he⟩ := Option.bind_eq_some_iff.mp he
      cases he
      exact h.mapDecls? hfile'
  add {file} path name h := by
    unfold addImport
    dsimp only
    split
    · split
      · exact h.mapDecls? ‹_›
      · exact h
    · split
      · exact h.mapDecls? ‹_›
      · exact h
  package _ _ h := h.set_name _

/-- **A recipe leaves the frame of a file alone.** -/
theorem apply_framed (h : file.Framed doc package comments) (log : EditLog) (opts : Options) :
    (r.apply file log opts).file.Framed doc package comments :=
  editsKeep_framed.apply h (fun _ _ => walkFile_framed h log) opts

theorem step_framed {opts : Options} {s s' : Session} (h : s.file.Framed doc package comments)
    (hs : Session.step opts s r = .ok s') : s'.file.Framed doc package comments := by
  have happly : (r.apply s.file .empty opts).file.Framed doc package comments := apply_framed h _ _
  unfold Session.step at hs
  dsimp only at hs
  split at hs
  · cases hs
  · split at hs
    · cases hs
      exact happly
    · cases hs
      exact happly

theorem foldlM_framed {rs : List Recipe} {opts : Options} {s s' : Session}
    (h : s.file.Framed doc package comments) (hs : rs.foldlM (Session.step opts) s = .ok s') :
    s'.file.Framed doc package comments := by
  induction rs generalizing s with
  | nil =>
    cases hs
    exact h
  | cons r rs ih =>
    rw [List.foldlM_cons] at hs
    obtain ⟨s₁, h₁, hs⟩ := exists_of_bind_ok hs
    exact ih (step_framed h h₁) hs

/-- **Recipes leave the frame of a file alone**, however many are applied. -/
theorem applyAll_framed (h : file.Framed doc package comments) {rs : List Recipe}
    {lines : LineTable} {opts : Options} {s : Session} (hs : applyAll rs file lines opts = .ok s) :
    s.file.Framed doc package comments := foldlM_framed h hs

end Recipe

end Graft
