import Graft.Proofs.Match.Conforming
import Graft.Proofs.Patch.Pairing

/-! # What compiled templates build

The template of a patch is made of a tree that was read, so it has all the fields of the schema, and
that of an expression builds an expression (`Patch.isSound_of_compile`).  The second matters at the
site of a match: nothing at all fits every slot for a single node, and would be let through there,
but an expression recipe never builds nothing (`Template.exists_node_of_build`).
-/

namespace Graft

/-! ### Compiled templates -/

/-- An expression is no list of fields. -/
theorem Node.elidedFields?_of_isExpr {n : Node} (h : n.kind.isA .expr = true) :
    n.elidedFields? = none := by
  unfold Node.elidedFields?
  split
  · rename_i hkind _
    rw [hkind] at h
    cases h
  · rfl

namespace Template

/-- Whether a template builds a node if it builds anything. -/
def buildsNode : Template → Bool
  | node _ _ | metavar _ _ | loop _ _ _ => true
  | _ => false

open Builder in
theorem exists_node_of_build {c : Captures} (hc : c.Conform) {t : Template}
    (ht : t.buildsNode = true) {d d' : Draft} {v : Tree} (h : (build c t).run d = .ok (v, d')) :
    ∃ n : Node, v = n.tree := by
  cases t with
  | node k fs =>
    rw [build] at h
    obtain ⟨values, d₁, -, h⟩ := exists_of_run_bind h
    split at h
    · cases h
    · cases h
      exact ⟨⟨k, values⟩, rfl⟩
  | metavar name p =>
    rw [build] at h
    obtain ⟨⟨value, span⟩, d₁, h₁, h⟩ := exists_of_run_bind h
    obtain ⟨u, d₂, h₂, h⟩ := exists_of_run_bind h
    cases h
    exact (hc.metavar? (eq_of_require h₁)).2
  | loop dots counterpart body =>
    rw [build] at h
    obtain ⟨⟨value, span⟩, d₁, -, h⟩ := exists_of_run_bind h
    obtain ⟨header, d₂, -, h⟩ := exists_of_run_bind h
    obtain ⟨u, d₃, -, h⟩ := exists_of_run_bind h
    obtain ⟨u, d₄, -, h⟩ := exists_of_run_bind h
    obtain ⟨built, d₅, -, h⟩ := exists_of_run_bind h
    split at h
    · cases h
      exact ⟨_, rfl⟩
    · cases h
  | _ => cases ht

/-- The template of an expression builds a node unless the expression is a wildcard, which is
misplaced where nothing is around it. -/
theorem buildsNode_ofTree {metas : MetaTable} {a : Pairing} {k : Kind} {fs : List Tree}
    (hk : k.isA .expr = true) (hdots : (Tree.node k fs).misplacedDots metas = []) :
    (ofTree metas a (.node k fs)).buildsNode = true := by
  have hfields : (⟨k, fs⟩ : Node).elidedFields? = none := Node.elidedFields?_of_isExpr hk
  rw [ofTree]
  split
  · rfl
  · rename_i hmeta
    rw [hfields]
    dsimp only
    split
    · rfl
    · rename_i hheader
      split
      · rename_i hkind
        subst hkind
        rw [Tree.misplacedDots] at hdots
        simp [hmeta, hfields, hheader] at hdots
      · rfl

end Template

/-- Whether a body builds conforming trees from conforming captures, and expressions where it
replaces expressions. -/
def RecipeBody.IsSound : RecipeBody → Prop
  | .none => True
  | .expr _ template => template.isFull = true ∧ template.buildsNode = true
  | .window _ _ template => template.isFull = true

/-! ### Compiling -/

/-- Whether both sides of a patch were read of a body. -/
structure Patch.ReadOf (p : Patch) (body : List PatchLine) : Prop where
  minus : Side.read BodyLine.isInMinus (BodyLine.ofLines 0 false body) = .ok p.minus
  plus : Side.read BodyLine.isInPlus (BodyLine.ofLines 0 false body) = .ok p.plus

/-- A patch was read of the lines between the closing line of its header and the next header. -/
theorem PatchFile.exists_section_of_mem {text : List Char} {p : Patch}
    (h : p ∈ (PatchFile.read text).patches) :
    ∃ front closing body back, PatchLine.ofText text = front ++ closing :: (body ++ back) ∧
      isClosing closing = true ∧ p.header.stop = .atOffset closing.stop ∧
      (∀ l ∈ body, isHeader l = false) ∧
      (∀ l ∈ back.head?, isHeader l = true) ∧ p.ReadOf body := by
  unfold PatchFile.read at h
  generalize PatchLine.ofText text = ls at h ⊢
  fun_induction readLines ls with
  | case1 => cases h
  | case2 l ls _ ih =>
    obtain ⟨front, closing, body, back, rfl, hpatch⟩ := ih h
    exact ⟨l :: front, closing, body, back, rfl, hpatch⟩
  | case3 l ls _ _ ih =>
    obtain ⟨front, closing, body, back, heq, hpatch⟩ := ih (by simpa [append] using h)
    refine ⟨l :: ls.takeWhile (fun l => !isHeader l) ++ front, closing, body, back, ?_, hpatch⟩
    rw [List.append_assoc, ← heq, List.cons_append, List.takeWhile_append_dropWhile]
  | case4 => cases h
  | case5 l ls _ _ decls closing rest hrest ih =>
    have hls : l :: ls = (l :: decls) ++ closing :: rest := by
      rw [List.cons_append, ← hrest, List.takeWhile_append_dropWhile]
    have hbody : rest.takeWhile (fun l => !isHeader l) ++ rest.dropWhile (fun l => !isHeader l) =
        rest :=
      List.takeWhile_append_dropWhile
    rcases List.mem_append.mp h with h | h
    · refine ⟨l :: decls, closing, _, _, by rw [hls, hbody], ?_, ?_, fun m hm => ?_,
        fun m hm => ?_, ?_⟩
      · have hclosing := List.head?_dropWhile_not (fun l => !isClosing l) ls
        rw [hrest] at hclosing
        simpa using hclosing
      · unfold readPatch at h
        dsimp only at h
        split at h
        · cases List.mem_singleton.mp h
          rfl
        · cases h
      · simpa using List.all_eq_true.mp List.all_takeWhile m hm
      · have hnext := List.head?_dropWhile_not (fun l => !isHeader l) rest
        rw [hm] at hnext
        simpa using hnext
      · unfold readPatch at h
        dsimp only at h
        split at h
        · rename_i hminus hplus
          cases List.mem_singleton.mp h
          exact ⟨hminus, hplus⟩
        · cases h
    · obtain ⟨front, closing', body, back, heq, hpatch⟩ := ih h
      have htail : closing :: rest =
          (closing :: (rest.takeWhile (fun l => !isHeader l) ++ front)) ++
          closing' :: (body ++ back) := by
        rw [List.cons_append, List.append_assoc, ← heq, hbody]
      exact ⟨(l :: decls) ++ closing :: (rest.takeWhile (fun l => !isHeader l) ++ front),
        closing', body, back, by rw [hls, htail, List.append_assoc], hpatch⟩

/-- Both sides of a patch were read of some lines of the file. -/
theorem PatchFile.exists_body_of_mem {text : List Char} {p : Patch}
    (h : p ∈ (PatchFile.read text).patches) : ∃ body, body ⊆ PatchLine.ofText text ∧
      p.ReadOf body := by
  obtain ⟨front, closing, body, back, heq, -, -, -, -, hread⟩ := exists_section_of_mem h
  refine ⟨body, fun l hl => ?_, hread⟩
  rw [heq]
  exact List.mem_append_right _ (List.mem_cons_of_mem _ (List.mem_append_left _ hl))

namespace Patch

variable {p : Patch} {r : Recipe}

theorem isFull_ofWindow {metas : MetaTable} {a : Pairing} {ts : List Tree} {head tail : Bool}
    (h : ∀ t ∈ ts, t.Full) : (Template.ofWindow metas a ts head tail).isFull = true := by
  have hitems := Template.itemsAreFull_ofItems metas a ts h
  rw [Template.ofWindow, Template.isFull]
  cases head <;> cases tail <;>
    simp [Template.itemsAreFull_append, Template.itemsAreFull, hitems]

theorem full_asStmt {x : Tree} (h : x.Full) : (asStmt x).Full := by
  rw [Tree.Full, asStmt, Tree.nodes_node, List.forall_mem_cons, Tree.forall_nodesAll]
  exact ⟨rfl, List.forall_mem_singleton.mpr h⟩

/-- **Compiled patches are sound.** -/
theorem isSound_of_compile {text : List Char} (hp : p ∈ (PatchFile.read text).patches)
    (h : p.compile = .ok r) : r.body.IsSound := by
  obtain ⟨body, -, hread⟩ := PatchFile.exists_body_of_mem hp
  obtain ⟨fragment, hfragment, hplus⟩ := Side.exists_of_read hread.plus
  obtain ⟨scan, groups, -, hgroups, hwords⟩ := exists_of_parseFragment hfragment
  obtain ⟨ws, c, -, hspelled⟩ := hwords.body
  rw [show fragment = p.plus.fragment by rw [hplus]] at hspelled
  have hfull := hspelled.full hgroups
  unfold compile at h
  split at h
  · cases h
  · dsimp only at h
    split at h
    · rename_i herrors
      cases h
      simp only [List.isEmpty_iff, List.append_eq_nil_iff] at herrors
      have hbody := herrors.2
      unfold recipeBody at hbody ⊢
      dsimp only at hbody ⊢
      split
      case h_1 => trivial
      case h_2 x y hminus hplus =>
        rw [hminus, hplus] at hbody
        rw [hplus] at hspelled hfull
        cases hspelled with
        | expr _ hy =>
          obtain ⟨k, fs, rfl, hk⟩ := hy.isExpr
          have hdots : (Tree.node k fs).misplacedDots p.metaTable = [] := by
            simpa using (List.append_eq_nil_iff.mp hbody).2
          exact ⟨Template.isFull_ofTree _ _ _ (hfull _ List.mem_cons_self),
            Template.buildsNode_ofTree hk hdots⟩
      case h_5 xs y _ hplus =>
        rw [hplus] at hfull
        exact isFull_ofWindow
          (List.forall_mem_singleton.mpr (full_asStmt (hfull _ List.mem_cons_self)))
      case h_3 hplus | h_6 hplus | h_8 hplus =>
        rw [hplus] at hfull
        exact isFull_ofWindow hfull
      case h_4 | h_7 | h_9 => exact isFull_ofWindow nofun
      case h_10 | h_11 => trivial
    · cases h

end Patch

/-! ### Recipes and files given as texts -/

namespace Recipe

/-- Whether a patch is one recipe and a text is a file, and the two pass a check. -/
def passes (patch text : String) (check : Recipe → Node → Bool) : Bool :=
  match compilePatchFile patch.toList, parseFile .code text.toList with
  | .ok [r], .ok file => check r file
  | _, _ => false

theorem exists_of_passes {patch text : String} {check : Recipe → Node → Bool}
    (h : passes patch text check = true) :
    ∃ r file, compilePatchFile patch.toList = .ok [r] ∧ parseFile .code text.toList = .ok file ∧
      check r file = true := by
  unfold passes at h
  split at h
  · rename_i r file hrs hfile
    exact ⟨r, file, hrs, hfile, h⟩
  · cases h

/-- Whether two patches are a recipe each and a text is a file, and they pass a check. -/
def passesBoth (patches text : String) (check : Recipe → Recipe → Node → Bool) : Bool :=
  match compilePatchFile patches.toList, parseFile .code text.toList with
  | .ok [r, r'], .ok file => check r r' file
  | _, _ => false

theorem exists_of_passesBoth {patches text : String} {check : Recipe → Recipe → Node → Bool}
    (h : passesBoth patches text check = true) :
    ∃ r r' file, compilePatchFile patches.toList = .ok [r, r'] ∧
      parseFile .code text.toList = .ok file ∧
      check r r' file = true := by
  unfold passesBoth at h
  split at h
  · rename_i r r' file hrs hfile
    exact ⟨r, r', file, hrs, hfile, h⟩
  · cases h

/-- Whether a patch is a recipe for stretches of statements, a text is a file that has what its
header asks for, and they pass a check. -/
def passesWindow (patch text : String) (check : Recipe → Node → Pattern → Captures → Bool) : Bool :=
  passes patch text fun r file =>
    match r.body, r.matchHeader? file with
    | .window .stmts pattern _, some base => check r file pattern base
    | _, _ => false

theorem exists_of_passesWindow {patch text : String}
    {check : Recipe → Node → Pattern → Captures → Bool} (h : passesWindow patch text check = true) :
    ∃ r file pattern template base, compilePatchFile patch.toList = .ok [r] ∧
      parseFile .code text.toList = .ok file ∧ r.body = .window .stmts pattern template ∧
      r.matchHeader? file = some base ∧ check r file pattern base = true := by
  obtain ⟨r, file, hrs, hfile, hcheck⟩ := exists_of_passes h
  split at hcheck
  · rename_i pattern template base hbody hbase
    exact ⟨r, file, pattern, template, base, hrs, hfile, hbody, hbase, hcheck⟩
  · cases hcheck

end Recipe

end Graft
