import Graft.Recipe.Compile
import Mathlib.Data.List.Basic
import Mathlib.Data.List.TakeWhile

/-! # Every header comes to a recipe

Where the headers of a patch file stand can be told from its lines alone: a line with an at sign
opens one unless it stands in a header, and a closing line ends it (`PatchFile.headerLines`).
Whether a patch is left out, on the other hand, is decided at many points, by what is wrong with it.

Each of these points leaves an error behind.  So a header is read as a patch of its name unless
reading reports something (`PatchFile.readPatch_of_errors`), and a patch is compiled unless
compiling does (`Patch.compile_cases`).  Together: a patch file comes to one recipe for every
header, in order, or to a list of errors that is not empty (`compilePatchFile_accounts`).
-/

namespace Graft

namespace PatchFile

/-! ### Headers -/

/-- The first lines of the headers among the given lines; `isOpen` tells whether the lines begin
inside a header. -/
def headerLines : (isOpen : Bool) → List PatchLine → List PatchLine
  | _, [] => []
  | true, l :: ls => headerLines (!isClosing l) ls
  | false, l :: ls => if isHeader l then l :: headerLines true ls else headerLines false ls

/-- Lines before the first header count for nothing. -/
theorem headerLines_dropWhile (ls : List PatchLine) :
    headerLines false (ls.dropWhile fun l => !isHeader l) = headerLines false ls := by
  induction ls with
  | nil => rfl
  | cons l ls ih =>
    rw [List.dropWhile_cons]
    split
    · rename_i h
      rw [ih, headerLines, if_neg (by simpa using h)]
    · rfl

/-- The headers behind an open one are those behind its closing line. -/
theorem headerLines_open (ls : List PatchLine) :
    headerLines true ls = headerLines false (ls.dropWhile fun l => !isClosing l).tail := by
  induction ls with
  | nil => rfl
  | cons l ls ih =>
    rw [headerLines, List.dropWhile_cons]
    cases isClosing l with
    | true => rfl
    | false => exact ih

/-- A line that counts for nothing opens no header. -/
theorem isHeader_of_isSkipped {l : PatchLine} (h : isSkipped l = true) : isHeader l = false := by
  obtain ⟨offset, text⟩ := l
  cases text with
  | nil => rfl
  | cons c cs =>
    rw [isHeader, List.head?_cons, beq_eq_false_iff_ne]
    rintro ⟨rfl⟩
    -- an at sign is no blank, so it is still the first character of the line without outer blanks
    have hstart : trimStart ('@' :: cs) = '@' :: cs := List.dropWhile_cons_of_neg (by decide)
    obtain ⟨back, hback⟩ := List.dropWhile_suffix isBlank (l := ('@' :: cs).reverse)
    have hcut : trim ('@' :: cs) ++ back.reverse = '@' :: cs := by
      rw [trim, hstart, trimEnd, ← List.reverse_append, hback, List.reverse_reverse]
    rw [isSkipped] at h
    dsimp only at h
    split at h
    · rename_i hnil
      rw [trim, hstart, trimEnd, List.reverse_eq_nil_iff, List.dropWhile_eq_nil_iff] at hnil
      exact absurd (hnil '@' (by simp)) (by decide)
    · rename_i d _ hcons
      rw [hcons, List.cons_append, List.cons.injEq] at hcut
      rw [hcut.1] at h
      cases h

/-! ### Reading -/

/-- A patch of which nothing is reported is read, under the name of its header. -/
theorem readPatch_of_errors {first closing : PatchLine} {decls body : List PatchLine}
    (h : (readPatch first decls closing body).errors = []) :
    ∃ p, (readPatch first decls closing body).patches = [p] ∧ headerName first = .ok p.name := by
  unfold readPatch at h ⊢
  dsimp only at h ⊢
  split at h
  · rename_i name minus plus hname _ _ _
    exact ⟨_, rfl, hname⟩
  · rename_i hproblem
    simp only [List.append_eq_nil_iff] at h
    obtain ⟨⟨⟨hname, hdecls⟩, hminus⟩, hplus⟩ := h
    -- without an error each of the four parts is sound, which is the first case
    split at hname
    · rename_i name hok
      generalize Side.read BodyLine.isInMinus _ = minus at hminus hproblem
      generalize Side.read BodyLine.isInPlus _ = plus at hplus hproblem
      cases minus with
      | error => cases hminus
      | ok minus =>
        cases plus with
        | error => cases hplus
        | ok plus => exact absurd rfl (hproblem name minus plus hok hdecls rfl)
    · cases hname

/-- **If reading reports nothing, every header has become a patch of its name.** -/
theorem readLines_of_errors (ls : List PatchLine) (h : (readLines ls).errors = []) :
    (readLines ls).patches.map (fun p => Except.ok p.name) = (headerLines false ls).map
      headerName := by
  fun_induction readLines ls with
  | case1 => rfl
  | case2 l ls hskipped ih =>
    rw [headerLines, if_neg (by rw [isHeader_of_isSkipped hskipped]; nofun)]
    exact ih h
  | case3 l ls _ hheader ih => cases h
  | case4 l ls _ _ decls _ =>
    -- a header that is never closed is reported whatever else is wrong
    simp [unclosedErrors] at h
  | case5 l ls _ hheader decls closing rest hrest ih =>
    obtain ⟨hpatch, hothers⟩ := List.append_eq_nil_iff.mp h
    obtain ⟨p, hp, hname⟩ := readPatch_of_errors hpatch
    rw [headerLines, if_pos (by simpa using hheader), headerLines_open, hrest, List.tail_cons,
      ← headerLines_dropWhile rest, List.map_cons, ← ih hothers, append, hp, hname]
    rfl

end PatchFile

/-! ### Compiling -/

/-- All that compiling a patch reports, in order. -/
def Patch.problems (p : Patch) : List PatchError :=
  if p.isPatternEmpty then [⟨.emptyPattern, p.header⟩]
  else
    p.packageClause.errors ++ (p.importClauses p.minus).errors ++ (p.importClauses p.plus).errors
      ++ p.unboundErrors ++ p.recipeBody.errors

/-- A patch is compiled to a recipe of its name if nothing is reported of it, and only then. -/
theorem Patch.compile_cases (p : Patch) :
    (∃ r, p.compile = .ok r ∧ r.name = p.name ∧ p.problems = []) ∨
      p.compile = .error p.problems ∧ p.problems ≠ [] := by
  unfold compile problems
  split
  · exact .inr ⟨rfl, List.cons_ne_nil _ _⟩
  · dsimp only
    split
    · rename_i herrors
      exact .inl ⟨_, rfl, rfl, List.isEmpty_iff.mp herrors⟩
    · rename_i herrors
      exact .inr ⟨rfl, fun h => herrors (List.isEmpty_iff.mpr h)⟩

/-- All that reading and compiling a patch file report, in order. -/
def PatchFile.problems (text : List Char) : List PatchError :=
  (read text).errors ++ (read text).patches.flatMap Patch.problems

section Compiled

variable {f : Except (List PatchError) Recipe → List PatchError}
  {g : Except (List PatchError) Recipe → Option Recipe}

/-- What compiling patches reports is what it reports of each. -/
theorem Patch.flatMap_compile (hok : ∀ r, f (.ok r) = []) (herror : ∀ es, f (.error es) = es)
    (ps : List Patch) : (ps.map compile).flatMap f = ps.flatMap problems := by
  rw [List.flatMap_map]
  refine List.flatMap_congr fun p _ => ?_
  rcases p.compile_cases with ⟨r, hr, -, hproblems⟩ | ⟨hfail, -⟩
  · rw [hr, hok, hproblems]
  · rw [hfail, herror]

/-- Patches of which nothing is reported come to one recipe each, in order and with their names. -/
theorem Patch.names_compile (hok : ∀ r, g (.ok r) = some r) {ps : List Patch}
    (h : ps.flatMap problems = []) :
    ((ps.map compile).filterMap g).map (fun r => Except.ok r.name) =
      ps.map fun p => (Except.ok p.name : Except PatchFault (Option String)) := by
  induction ps with
  | nil => rfl
  | cons p ps ih =>
    rw [List.flatMap_cons, List.append_eq_nil_iff] at h
    rcases p.compile_cases with ⟨r, hr, hname, -⟩ | ⟨-, hproblems⟩
    · rw [List.map_cons, hr, List.filterMap_cons_some (hok r), List.map_cons, List.map_cons,
        ih h.2, hname]
    · exact absurd h.1 hproblems

end Compiled

/-- **No patch disappears silently.**  A patch file is refused just when something is reported of
it, with all that is reported; otherwise it comes to exactly one recipe for every header, in the
order of the file and with the name that the header gives. -/
theorem compilePatchFile_accounts (text : List Char) :
    match compilePatchFile text with
    | .error es => es = PatchFile.problems text ∧ es ≠ []
    | .ok rs =>
      PatchFile.problems text = [] ∧
        rs.map (fun r => Except.ok r.name) =
          (PatchFile.headerLines false (PatchLine.ofText text)).map PatchFile.headerName := by
  unfold compilePatchFile PatchFile.problems
  dsimp only
  rw [Patch.flatMap_compile (by intro; rfl) (by intro; rfl)]
  split
  · rename_i es hresult
    split at hresult
    · cases hresult
    · rename_i herrors
      cases hresult
      exact ⟨rfl, fun h => herrors (List.isEmpty_iff.mpr h)⟩
  · rename_i rs hresult
    split at hresult
    · rename_i herrors
      cases hresult
      have hnone := List.isEmpty_iff.mp herrors
      obtain ⟨hread, hcompiled⟩ := List.append_eq_nil_iff.mp hnone
      refine ⟨hnone, ?_⟩
      rw [← PatchFile.readLines_of_errors _ hread, ← PatchFile.read]
      exact Patch.names_compile (by intro; rfl) hcompiled
    · cases hresult

end Graft
