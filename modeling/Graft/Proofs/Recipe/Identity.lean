import Graft.Proofs.Patch.Context
import Graft.Proofs.Recipe.Conforming
import Graft.Proofs.Recipe.Failure
import Graft.Proofs.Recipe.Mirror
import Graft.Proofs.Tree.SameCode

/-! # Context-only patches change nothing

The recipe of a patch of context lines builds every match as it was found
(`Recipe.IsMirror.builds_window`, `Patch.IsContext.isMirror`).  What spells the same code as before
is not put in place, so the recipe leaves every conforming file and every settled log as they are
(`Recipe.apply_context`).

A walk that puts nothing in place comes to the nodes of the file as they are.  So a visit has to be
followed on these nodes only (`Visit.Idles`).
-/

namespace Graft

/-! ### Recipes that mirror what they find -/

/-- Whether a body builds what it finds. -/
def RecipeBody.IsMirror : RecipeBody → Prop
  | .none => True
  | .expr pattern template | .window _ pattern template => pattern.MirroredBy template

/-- Whether a recipe builds what it finds, and has no imports and no package clause to see to. -/
structure Recipe.IsMirror (r : Recipe) : Prop where
  body : r.body.IsMirror
  matched : r.matched = []
  wanted : r.wanted = []
  package : r.package = none

namespace Patch

variable {p : Patch}

/-- No metavariable occurs twice in the trees of a patch of context lines. -/
theorem IsContext.nodup_metavarNames (h : p.IsContext) :
    (Tree.metavarNamesAll p.metaTable p.minus.fragment.body.trees).Nodup := by
  have hmetavars := h.metavars
  have htrees : { p.minus.fragment with package := none }.trees = p.minus.fragment.body.trees := by
    rw [← h.trees_eq, Fragment.trees, Fragment.trees, h.package]
  have hnodes (ts : List Tree) : ts.flatMap Tree.nodes = Tree.nodesAll ts := by
    induction ts with
    | nil => rfl
    | cons t ts ih => rw [List.flatMap_cons, ih, Tree.nodesAll]
  rw [metavarsIn] at hmetavars
  dsimp only at hmetavars
  rw [htrees, hnodes, List.map_filterMap] at hmetavars
  simp only [Option.map_map] at hmetavars
  exact hmetavars

theorem IsContext.isMirror_recipeBody {text : List Char} (hp : p ∈ (PatchFile.read text).patches)
    (h : p.IsContext) (herrors : p.recipeBody.errors = []) : p.recipeBody.value.IsMirror := by
  obtain ⟨hsides, hnodes, hpositions, hpaired⟩ := h.isPlain hp
  have hnames := h.nodup_metavarNames
  have hwindow {level : Level} {ts : List Tree} (hts : p.minus.fragment.body.trees = ts)
      (herrors : (p.windowBody level ts ts).errors = []) :
      (p.windowBody level ts ts).value.IsMirror := by
    rw [hts] at hnodes hpositions hpaired hnames
    have hdots : Tree.misplacedDotsItems p.metaTable ts = [] := by
      simpa using (List.append_eq_nil_iff.mp herrors).1
    refine Tree.AreRegular.mirroredBy_ofWindow ⟨hnodes, hpaired, hdots⟩ ⟨hpositions, hnames⟩
      fun hhead => ?_
    cases ts with
    | nil => cases hhead
    | cons t ts => exact ⟨t, rfl, by simpa using hhead⟩
  -- the sides are one, so of the pairs of bodies only those of one sort are left
  unfold recipeBody at herrors ⊢
  rw [← hsides] at herrors ⊢
  cases hbody : p.minus.fragment.body with
  | empty => trivial
  | expr x =>
    rw [hbody] at hnodes hpositions hpaired hnames herrors
    have hdots : x.misplacedDots p.metaTable = [] := by
      simpa using (List.append_eq_nil_iff.mp herrors).1
    have hx : x ∈ Body.trees (.expr x) := List.mem_cons_self
    have hregular : x.IsRegular p.metaTable (.ofPatch p) :=
      ⟨fun n hn => hnodes n ((Tree.subset_of_mem hx).2 hn),
        fun q hq => hpaired q ((Tree.subset_of_mem hx).1 hq), hdots⟩
    exact hregular.mirroredBy (Tree.AreDistinct.mem ⟨hpositions, hnames⟩ hx)
  | stmts ts | decls ts =>
    rw [hbody] at herrors
    exact hwindow (by rw [hbody]; rfl) herrors

/-- **A patch of context lines builds what it finds.** -/
theorem IsContext.isMirror {text : List Char} {r : Recipe} (hp : p ∈ (PatchFile.read text).patches)
    (h : p.IsContext) (hr : p.compile = .ok r) : r.IsMirror := by
  have hsides := (h.isPlain hp).sides
  have himports : p.importClauses p.minus = ⟨[], []⟩ := by
    rw [importClauses, h.imports]
    rfl
  have hpackage : p.packageClause = ⟨none, []⟩ := by
    rw [packageClause, ← hsides, packageName?, h.package]
    rfl
  unfold compile at hr
  split at hr
  · cases hr
  · dsimp only at hr
    split at hr
    · rename_i herrors
      cases hr
      simp only [List.isEmpty_iff, List.append_eq_nil_iff] at herrors
      refine ⟨h.isMirror_recipeBody hp herrors.2, ?_, ?_, ?_⟩
      · dsimp only
        rw [himports]
      · dsimp only
        rw [← hsides, himports]
      · dsimp only
        rw [hpackage]
    · cases hr

end Patch

/-! ### Building -/

namespace Recipe

variable {r : Recipe} {c e : Captures}

open Builder

/-- What a pattern finds, a template that mirrors it builds, from any captures with the same
bindings. -/
theorem builds_of_match? {p : Pattern} {t : Template} (h : p.MirroredBy t) {v : Tree}
    (hv : v.conforms = true) (hmatch : p.match? v .empty = some c)
    (he : ∀ k, k ≠ .container → k ≠ .site → e.get? k = c.get? k) : (t.build e).Builds v := by
  refine h.mirrors.build_of_match h.nodup hv (fun _ _ => rfl) hmatch fun k hk => he k ?_ ?_
  · rintro rfl
    exact h.container hk
  · rintro rfl
    exact h.site hk

/-- An expression is built as it was found. -/
theorem IsMirror.builds_expr (h : r.IsMirror) {pattern : Pattern} {template : Template}
    (hbody : r.body = .expr pattern template) {v : Tree} (hv : v.conforms = true)
    (hmatch : pattern.match? v .empty = some c)
    (he : ∀ k, e.get? k = (c.bind .site (.span v.span)).get? k) : (r.build e).Builds v := by
  have hmirror := h.body
  rw [hbody] at hmirror
  rw [build, hbody]
  refine builds_of_match? hmirror hv hmatch fun k _ hsite => ?_
  rw [he, Captures.get?_bind, if_neg (Ne.symm hsite)]

/-- A container is built as it was found if the end of its list is. -/
theorem builds_filled {level : Level} {pattern : Pattern} {template : Template}
    (hbody : r.body = .window level pattern template) {n : Node} {l : Label}
    {front back : List Tree} (hn : n.tree.conforms = true) (hl : level.field? n.kind = some l)
    (hlist : n.get l = .list (front ++ back))
    (hcontainer : (e.captured? .container).bind (·.1.node?) = some (n.set l (.list front)))
    (hback : (template.build e).Builds (.list back)) : (r.build e).Builds n.tree := by
  obtain ⟨f, hf, -⟩ := Option.map_eq_some_iff.mp (Level.slot_of_field? hl)
  have hfilled : (n.set l (.list front)).set l (.list (front ++ back)) = n := by
    rw [Node.set_set, ← hlist, Node.set_get]
  have hchecked {m : Node} (hm : m = n) :
      (if (m.kind.fields.find? (·.label == l)).all (fun f => f.slot.accepts (m.get l)) =
        true then pure m.tree else throw (.misfit (.inContainer m.kind)) : Builder
        Tree).Builds n.tree := by
    rw [hm, hf, Option.all_some, if_pos (Node.accepts_get hn hf)]
    exact builds_pure _
  rw [build, hbody]
  refine (builds_require hcontainer _ _).bind ?_
  refine (builds_require (by rw [Node.kind_set]; exact hl) _ _).bind (hback.bind ?_)
  dsimp only
  rw [Node.get_set hn hf]
  exact hchecked hfilled

/-- A container is built as it was found, wherever in it the stretch begins. -/
theorem IsMirror.builds_window (h : r.IsMirror) {level : Level} {pattern : Pattern}
    {template : Template} (hbody : r.body = .window level pattern template) {n : Node} {l : Label}
    {offset : Nat} (hn : n.tree.conforms = true) (hl : level.field? n.kind = some l)
    (hmatch : matchWindow? n l offset pattern .empty = some c) (he : ∀ k, e.get? k = c.get? k) :
    (r.build e).Builds n.tree := by
  have hmirror := h.body
  rw [hbody] at hmirror
  obtain ⟨f, hf, hslot⟩ := Option.map_eq_some_iff.mp (Level.slot_of_field? hl)
  obtain ⟨ts, hts⟩ := Slot.exists_list_of_accepts (hslot ▸ Node.accepts_get hn hf)
  have hitems := Node.conforms_get (l := l) hn
  rw [hts] at hitems
  obtain ⟨c₁, s, hfound, rfl⟩ := exists_of_matchWindow? hmatch
  rw [show n.list l = ts from congrArg Tree.items hts] at hfound he
  have hlist : n.get l = .list (ts.take offset ++ ts.drop offset) := by
    rw [List.take_append_drop, hts]
  refine builds_filled hbody hn hl hlist ?_ ?_
  · rw [Captures.captured?, he, Captures.get?_bind, if_neg (by decide),
      Captures.get?_bind, if_pos rfl]
    rfl
  · refine builds_of_match? hmirror (Tree.conforms_list.mpr fun t ht => ?_) hfound
      fun k hcontainer hsite => ?_
    · exact Tree.conforms_list.mp hitems t (List.mem_of_mem_drop ht)
    · rw [he, Captures.get?_bind, if_neg (Ne.symm hsite), Captures.get?_bind,
        if_neg (Ne.symm hcontainer)]

/-- What `Recipe.matchNode?` finds is built as it was found. -/
theorem IsMirror.builds_of_matchNode? (h : r.IsMirror) {v : Tree} (hv : v.conforms = true)
    (hmatch : r.matchNode? v = some c) : (r.build c).Builds v := by
  unfold matchNode? at hmatch
  split at hmatch
  · cases hmatch
  · rename_i hbody
    obtain ⟨c₁, hfound, rfl⟩ := Option.map_eq_some_iff.mp hmatch
    exact h.builds_expr hbody hv hfound fun _ => rfl
  · rename_i hbody
    obtain ⟨n, hn, hmatch⟩ := Option.bind_eq_some_iff.mp hmatch
    obtain ⟨l, hl, hfound⟩ := Option.bind_eq_some_iff.mp hmatch
    obtain rfl := Tree.tree_of_node? hn
    exact h.builds_window hbody hv hl hfound fun _ => rfl

/-! ### Replacing -/

theorem replace_of_builds {v : Tree} (h : (r.build c).Builds v) (log : EditLog) :
    (r.replace c log).1 = .ok v := by
  obtain ⟨d, hrun⟩ := h ⟨((c.span? .site).getD .none).start, []⟩
  unfold replace replaceInto
  dsimp only
  rw [hrun]
  rfl

/-- A node that is built as it was found is not put in place. -/
theorem replaceInto_of_builds {n : Node} (h : (r.build c).Builds n.tree) (log : EditLog)
    (slot : Option Slot) :
    r.replaceInto c log slot (some n) = (.ok none, log.discard) ∨
      ∃ e, e.isMisfit = true ∧ r.replaceInto c log slot (some n) = (.error e, log.discard) := by
  obtain ⟨d, hrun⟩ := h ⟨((c.span? .site).getD .none).start, []⟩
  have hsame : n.tree.sameCode n = true := Tree.SameCode.refl n
  unfold replaceInto
  dsimp only
  rw [hrun]
  dsimp only
  split
  · exact .inr ⟨_, rfl, rfl⟩
  · rw [show n.tree.node? = some n from rfl]
    dsimp only
    rw [if_pos hsame]
    exact .inl rfl

end Recipe

/-! ### Walks -/

theorem EditLog.discard_eq (log : EditLog) (hmarked : log.marked = .empty)
    (hspared : log.spared = .empty) :
    log.discard = log := by
  obtain ⟨marked, spared, changed, kept⟩ := log
  cases hmarked
  cases hspared
  rfl

/-- Whether nothing has stopped a walk and its log is still the given one. -/
structure Pass.IsIdle (log : EditLog) (pass : Pass) : Prop where
  log : pass.log = log
  failure : pass.failure = none

namespace Pass.IsIdle

variable {log : EditLog} {pass : Pass}

theorem advance (h : pass.IsIdle log) (c : Captures) :
    (pass.advance c log).IsIdle log := ⟨rfl, h.failure⟩

theorem reject (h : pass.IsIdle log) {e : BuildError} (he : e.isMisfit = true) :
    (pass.reject e log).IsIdle log :=
  ⟨rfl, by rw [Pass.reject, if_pos he, h.failure]⟩

end Pass.IsIdle

/-- Whether a visit leaves conforming nodes and the log as they are, and never stops the walk. -/
def Visit.Idles (visit : Visit) (log : EditLog) : Prop :=
  ∀ slot pass, ∀ n : Node, n.tree.conforms = true → pass.IsIdle log →
    (visit slot n.tree pass).1 = n.tree ∧ (visit slot n.tree pass).2.IsIdle log

section Sweep

variable {visit : Visit} {log : EditLog}

mutual

/-- **A walk whose visits leave everything as it is leaves everything as it is.** -/
theorem sweep_idle (hv : visit.Idles log) (slot : Slot) (t : Tree)
    (h : t.conforms = true) {pass : Pass} (hpass : pass.IsIdle log) :
    (sweep visit slot t pass).1 = t ∧ (sweep visit slot t pass).2.IsIdle log := by
  match t with
  | .list ts =>
    rw [sweep]
    obtain ⟨hts, hpass⟩ := sweepItems_idle hv slot.ofItem ts (Tree.conforms_list.mp h) hpass
    exact ⟨congrArg Tree.list hts, hpass⟩
  | .node k fs =>
    rw [sweep]
    split
    · exact ⟨rfl, hpass⟩
    · obtain ⟨hfs, hpass⟩ := sweepFields_idle hv k.fields fs (Tree.conforms_node.mp h).2.2 hpass
      dsimp only
      rw [hfs]
      exact hv slot _ ⟨k, fs⟩ h hpass
  | .nil | .pos _ | .str _ | .tok _ => exact ⟨rfl, hpass⟩

theorem sweepItems_idle (hv : visit.Idles log) (slot : Slot) (ts : List Tree)
    (h : ∀ t ∈ ts, t.conforms = true) {pass : Pass} (hpass : pass.IsIdle log) :
    (sweepItems visit slot ts pass).1 = ts ∧ (sweepItems visit slot ts pass).2.IsIdle log := by
  match ts with
  | [] => exact ⟨rfl, hpass⟩
  | t :: ts =>
    obtain ⟨ht, hts⟩ := List.forall_mem_cons.mp h
    rw [sweepItems]
    obtain ⟨ht, hpass⟩ := sweep_idle hv slot t ht hpass
    obtain ⟨hts, hpass⟩ := sweepItems_idle hv slot ts hts hpass
    exact ⟨List.cons_eq_cons.mpr ⟨ht, hts⟩, hpass⟩

theorem sweepFields_idle (hv : visit.Idles log) (fs : List Field) (ts : List Tree)
    (h : ∀ t ∈ ts, t.conforms = true) {pass : Pass} (hpass : pass.IsIdle log) :
    (sweepFields visit fs ts pass).1 = ts ∧ (sweepFields visit fs ts pass).2.IsIdle log := by
  match fs, ts with
  | f :: fs, t :: ts =>
    obtain ⟨ht, hts⟩ := List.forall_mem_cons.mp h
    rw [sweepFields]
    obtain ⟨ht, hpass⟩ : (if f.slot.holdsCode then sweep visit f.slot t pass else (t, pass)).1 = t ∧
        (if f.slot.holdsCode then sweep visit f.slot t pass else (t, pass)).2.IsIdle log := by
      split
      · exact sweep_idle hv f.slot t ht hpass
      · exact ⟨rfl, hpass⟩
    obtain ⟨hts, hpass⟩ := sweepFields_idle hv fs ts hts hpass
    exact ⟨List.cons_eq_cons.mpr ⟨ht, hts⟩, hpass⟩
  | [], [] | [], _ :: _ | _ :: _, [] => exact ⟨rfl, hpass⟩

end

end Sweep

namespace Recipe

section Idle

variable {r : Recipe} {log : EditLog} (h : r.IsMirror) (hlog : log.discard = log)
include h hlog

theorem IsMirror.visitExpr_idles {pattern : Pattern} {template : Template}
    (hbody : r.body = .expr pattern template) : (r.visitExpr pattern .empty).Idles log := by
  intro slot pass n hn hpass
  unfold visitExpr
  rw [hpass.failure, hpass.log]
  dsimp only
  rw [if_neg (by nofun)]
  split
  · exact ⟨rfl, hpass⟩
  · rename_i c hmatch
    have hbuilds := h.builds_expr hbody hn hmatch (Captures.get?_visible _)
    rw [show n.tree.node? = some n from rfl]
    rcases replaceInto_of_builds hbuilds log (some slot) with hnone | ⟨e, he, herror⟩
    · rw [hnone, hlog]
      exact ⟨rfl, hpass.advance _⟩
    · rw [herror, hlog]
      exact ⟨rfl, hpass.reject he⟩

theorem IsMirror.rewindow_idle {level : Level} {pattern : Pattern} {template : Template}
    (hbody : r.body = .window level pattern template) {n : Node} {l : Label}
    (hn : n.tree.conforms = true) (hl : level.field? n.kind = some l) (rounds offset : Nat)
    {pass : Pass} (hpass : pass.IsIdle log) :
    (r.rewindow l pattern .empty rounds offset n pass).1 = n ∧
      (r.rewindow l pattern .empty rounds offset n pass).2.IsIdle log := by
  induction rounds generalizing offset pass with
  | zero => exact ⟨rfl, hpass⟩
  | succ rounds ih =>
    rw [rewindow, hpass.log]
    dsimp only
    split
    · exact ⟨rfl, hpass⟩
    · split
      · exact ⟨rfl, hpass⟩
      · rename_i c hmatch
        have hbuilds := h.builds_window hbody hn hl hmatch (Captures.get?_visible c)
        -- each round finds the container as it was, and goes on behind the stretch
        rcases replaceInto_of_builds hbuilds log none with hnone | ⟨e, he, herror⟩
        · rw [hnone, hlog]
          exact ih _ (hpass.advance _)
        · have hpass := hpass.reject he
          rw [herror, hlog]
          dsimp only
          rw [hpass.failure, if_neg (by rintro ⟨⟩)]
          exact ih _ hpass

theorem IsMirror.visitContainer_idles {level : Level} {pattern : Pattern} {template : Template}
    (hbody : r.body = .window level pattern template) :
    (r.visitContainer level pattern .empty).Idles log := by
  intro slot pass n hn hpass
  unfold visitContainer
  rw [hpass.failure, if_neg (by nofun), show n.tree.node? = some n from rfl]
  dsimp only
  split
  · exact ⟨rfl, hpass⟩
  · rename_i l hl
    obtain ⟨hnode, hpass⟩ := h.rewindow_idle hlog hbody hn hl ((n.list l).length + 1) 0 hpass
    exact ⟨congrArg Node.tree hnode, hpass⟩

/-! ### Files -/

theorem IsMirror.walkFile_idle {file : Node} (hfile : file.tree.conforms = true) :
    (r.walkFile .empty file log).1 = file ∧ (r.walkFile .empty file log).2.IsIdle log := by
  have hstart : (⟨log, 0, none, none⟩ : Pass).IsIdle log := ⟨rfl, rfl⟩
  unfold walkFile
  dsimp only
  split
  · exact ⟨rfl, hstart⟩
  · rename_i pattern template hbody
    have hvisit := h.visitExpr_idles hlog hbody
    obtain ⟨hfields, hpass⟩ := sweepFields_idle hvisit file.kind.fields file.fields
      (Tree.conforms_node.mp hfile).2.2 hstart
    refine ⟨?_, hpass⟩
    dsimp only
    rw [hfields]
  · rename_i level pattern template hbody
    have hvisit := h.visitContainer_idles hlog hbody
    obtain ⟨htree, hpass⟩ := sweep_idle hvisit (.node .file) file.tree hfile hstart
    refine ⟨?_, hpass⟩
    dsimp only
    rw [htree]
    rfl

/-- There are no imports and no package clause to bring into line. -/
theorem IsMirror.finish_idle (c : Captures) (count : Nat) (file : Node) (opts : Options) :
    ∃ count', r.finish c count file log opts = ⟨.ok count', file, log⟩ := by
  have hcommit : log.commit = log := by
    rw [← hlog]
    rfl
  have himports : r.updateImports c file log = (file, log, false) := by
    rw [updateImports, h.wanted, h.matched]
    rfl
  have hpackage : r.updatePackage file log = (file, log, false) := by
    rw [updatePackage, h.package]
    rfl
  unfold finish
  extract_lets isBodyless
  split
  · rw [himports, ite_self]
    dsimp only
    rw [hpackage, hcommit]
    exact ⟨_, rfl⟩
  · exact ⟨_, rfl⟩

/-- **A recipe that builds what it finds leaves every file and every settled log as they are.** -/
theorem IsMirror.apply_idle {file : Node} (hfile : file.tree.conforms = true) (opts : Options) :
    ∃ count, r.apply file log opts = ⟨.ok count, file, log⟩ := by
  have hheader : r.matchHeader? file = some .empty := by
    rw [matchHeader?, h.package, h.matched]
    rfl
  obtain ⟨hwalk, hpass⟩ := h.walkFile_idle hlog hfile
  rw [apply, hheader]
  dsimp only
  rw [hpass.failure, hpass.log, hwalk]
  exact h.finish_idle hlog _ _ file opts

end Idle

/-- **Matching and then replacing is the identity for a patch of context lines**: if it has no
comments, no package clause, no imports and no metavariable that occurs twice, its recipe builds
every match exactly as it was found, and applied to a file it succeeds and changes neither the file
nor a log without pending marks. -/
theorem apply_context {text : List Char} {p : Patch} {r : Recipe}
    (hp : p ∈ (PatchFile.read text).patches) (hcontext : p.IsContext) (hr : p.compile = .ok r) :
    (∀ v c log, v.conforms = true → r.matchNode? v = some c → (r.replace c log).1 = .ok v) ∧
    ∀ (file : Node) (log : EditLog) (opts : Options), file.tree.conforms = true →
      log.marked = .empty → log.spared = .empty →
        ∃ count, r.apply file log opts = ⟨.ok count, file, log⟩ := by
  have hmirror := hcontext.isMirror hp hr
  refine ⟨fun v c log hv hmatch => ?_, fun file log opts hfile hmarked hspared => ?_⟩
  · exact replace_of_builds (hmirror.builds_of_matchNode? hv hmatch) log
  · exact hmirror.apply_idle (log.discard_eq hmarked hspared) hfile opts

/-- Here a loop header, the value of a metavariable and the statements around the loop are put
back. -/
theorem apply_context_loop :
    ∃ p r file c,
      (PatchFile.read "@@\nvar x expression\n@@\n for ... \x7b\n \tf(x)\n \x7d\n".toList).patches =
      [p] ∧
      p.IsContext ∧ p.compile = .ok r ∧
      parseFile .code
        "package p\n\nfunc h() \x7b\n\ty()\n\tfor i := range s \x7b\n\t\tf(1)\n\t\x7d\n\x7d\n".toList =
        .ok file ∧
      (∃ n ∈ file.tree.nodes, n.tree.conforms = true ∧ r.matchNode? n = some c ∧
        (r.replace c .empty).1 = .ok n.tree) ∧
      file.tree.conforms = true ∧ r.apply file .empty .default = ⟨.ok 1, file, .empty⟩ := by
  have hone : (PatchFile.read
      "@@\nvar x expression\n@@\n for ... \x7b\n \tf(x)\n \x7d\n".toList).patches.length = 1 := by
    decide +kernel
  have hruns : ((PatchFile.read
      "@@\nvar x expression\n@@\n for ... \x7b\n \tf(x)\n \x7d\n".toList).patches.all fun p =>
        decide p.IsContext && p.compile.toOption.any fun r => (parseFile .code
          "package p\n\nfunc h() \x7b\n\ty()\n\tfor i := range s \x7b\n\t\tf(1)\n\t\x7d\n\x7d\n".toList).toOption.any
          fun file => file.tree.conforms &&
            (file.tree.nodes.any fun n => n.tree.conforms && (r.matchNode? n).isSome) &&
            (r.apply file .empty .default).result.toOption == some 1) = true := by decide +kernel
  obtain ⟨p, hpatches⟩ := List.length_eq_one_iff.mp hone
  rw [hpatches, List.all_eq_true] at hruns
  obtain ⟨hcontext, hruns⟩ := (Bool.and_eq_true _ _).mp (hruns p List.mem_cons_self)
  have hcontext := of_decide_eq_true hcontext
  obtain ⟨r, hr, hruns⟩ := exists_of_any_toOption hruns
  obtain ⟨file, hfile, hruns⟩ := exists_of_any_toOption hruns
  simp only [Bool.and_eq_true, List.any_eq_true, beq_iff_eq] at hruns
  obtain ⟨⟨hconforms, n, hn, hnode, hmatch⟩, hcount⟩ := hruns
  obtain ⟨c, hmatch⟩ := Option.isSome_iff_exists.mp hmatch
  have hidentity := apply_context (hpatches ▸ List.mem_cons_self) hcontext hr
  obtain ⟨count, happly⟩ := hidentity.2 file .empty .default hconforms rfl rfl
  rw [happly] at hcount
  cases hcount
  exact ⟨p, r, file, c, hpatches, hcontext, hr, hfile,
    ⟨n, hn, hnode, hmatch, hidentity.1 n c .empty hnode hmatch⟩, hconforms, happly⟩

end Recipe

end Graft
