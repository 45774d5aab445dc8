import Graft.Proofs.Match.Alike
import Graft.Proofs.Recipe.Compiled
import Graft.Proofs.Recipe.Replacing
import Graft.Recipe.Compile

/-! # A recipe that fails changes nothing

A walk puts replacements in place one by one and stops at the first match that lacks something its
template asks for.  Nothing is rolled back then, and nothing has to be: all matches of a recipe are
alike, so either none of them ever lacks anything, and the walk does not stop, or no replacement can
be built at all (`Recipe.complete_or_stuck`), and the walk leaves everything as it is.
-/

namespace Graft

open Captures

/-! ### Walks -/

section Sweep

variable {visit : Visit}

mutual

/-- What every visit keeps, a walk keeps. -/
theorem sweep_keeps {Q : Pass → Prop} (hv : ∀ slot t pass, Q pass → Q (visit slot t pass).2)
    (slot : Slot) (t : Tree) {pass : Pass} (h : Q pass) : Q (sweep visit slot t pass).2 := by
  match t with
  | .list ts =>
    rw [sweep]
    exact sweepItems_keeps hv slot.ofItem ts h
  | .node k fs =>
    rw [sweep]
    split
    · exact h
    · exact hv _ _ _ (sweepFields_keeps hv k.fields fs h)
  | .nil | .pos _ | .str _ | .tok _ => exact h

theorem sweepItems_keeps {Q : Pass → Prop} (hv : ∀ slot t pass, Q pass → Q (visit slot t pass).2)
    (slot : Slot) (ts : List Tree) {pass : Pass} (h : Q pass) :
    Q (sweepItems visit slot ts pass).2 := by
  match ts with
  | [] => exact h
  | t :: ts =>
    rw [sweepItems]
    exact sweepItems_keeps hv slot ts (sweep_keeps hv slot t h)

theorem sweepFields_keeps {Q : Pass → Prop} (hv : ∀ slot t pass, Q pass → Q (visit slot t pass).2)
    (fs : List Field) (ts : List Tree) {pass : Pass} (h : Q pass) :
    Q (sweepFields visit fs ts pass).2 := by
  match fs, ts with
  | f :: fs, t :: ts =>
    rw [sweepFields]
    by_cases hf : f.slot.holdsCode = true
    · rw [if_pos hf]
      exact sweepFields_keeps hv fs ts (sweep_keeps hv f.slot t h)
    · rw [if_neg hf]
      exact sweepFields_keeps hv fs ts h
  | [], [] | [], _ :: _ | _ :: _, [] => exact h

end

mutual

/-- A walk whose visits change nothing changes nothing. -/
theorem sweep_still (hv : ∀ slot t pass, (visit slot t pass).1 = t) (slot : Slot) (t : Tree)
    (pass : Pass) : (sweep visit slot t pass).1 = t := by
  match t with
  | .list ts =>
    rw [sweep]
    exact congrArg Tree.list (sweepItems_still hv slot.ofItem ts pass)
  | .node k fs =>
    rw [sweep]
    split
    · rfl
    · dsimp only
      rw [hv, sweepFields_still hv k.fields fs pass]
  | .nil | .pos _ | .str _ | .tok _ => rfl

theorem sweepItems_still (hv : ∀ slot t pass, (visit slot t pass).1 = t) (slot : Slot)
    (ts : List Tree) (pass : Pass) : (sweepItems visit slot ts pass).1 = ts := by
  match ts with
  | [] => rfl
  | t :: ts =>
    rw [sweepItems]
    dsimp only
    rw [sweep_still hv, sweepItems_still hv]

theorem sweepFields_still (hv : ∀ slot t pass, (visit slot t pass).1 = t) (fs : List Field)
    (ts : List Tree) (pass : Pass) : (sweepFields visit fs ts pass).1 = ts := by
  match fs, ts with
  | f :: fs, t :: ts =>
    rw [sweepFields]
    dsimp only
    rw [sweepFields_still hv]
    split
    · rw [sweep_still hv]
    · rfl
  | [], [] | [], _ :: _ | _ :: _, [] => rfl

end

end Sweep

namespace Recipe

variable {r : Recipe} {base c c' : Captures}

/-! ### Matches -/

/-- Whether captures are those that a walk builds a replacement from. -/
def IsMatch (r : Recipe) (base c : Captures) : Prop :=
  match r.body with
  | .none => False
  | .expr pattern _ =>
    ∃ t c₁, pattern.match? t base = some c₁ ∧ c = (c₁.bind .site (.span t.span)).visible
  | .window level pattern _ =>
    ∃ n l offset c₁, level.field? n.kind = some l ∧
      matchWindow? n l offset pattern base = some c₁ ∧ c = c₁.visible

/-- **All matches of a recipe are alike.** -/
theorem IsMatch.alike (h : r.IsMatch base c) (h' : r.IsMatch base c') : Alike c c' := by
  unfold IsMatch at h h'
  split at h
  · cases h
  · rename_i hbody
    rw [hbody] at h'
    obtain ⟨t, c₁, h₁, rfl⟩ := h
    obtain ⟨t', c₁', h₁', rfl⟩ := h'
    refine Alike.visible (Alike.bind ?_ rfl)
    exact Pattern.matchWith_alike _ (.refl base) h₁ h₁'
  · rename_i hbody
    rw [hbody] at h'
    obtain ⟨n, l, offset, c₁, -, h₁, rfl⟩ := h
    obtain ⟨n', l', offset', c₁', -, h₁', rfl⟩ := h'
    obtain ⟨c₂, s, h₂, rfl⟩ := exists_of_matchWindow? h₁
    obtain ⟨c₂', s', h₂', rfl⟩ := exists_of_matchWindow? h₁'
    have hitems : Alike c₂ c₂' := Pattern.matchWith_alike _ (.refl base) h₂ h₂'
    refine Alike.visible (Alike.bind ?_ rfl)
    exact hitems.bind rfl

/-- Where one replacement can be built, every match has what the template asks for. -/
theorem IsMatch.complete (hc : r.IsMatch base c) (hc' : r.IsMatch base c')
    (h : (r.build c).Succeeds) : (r.build c').Complete := by
  have halike := hc.alike hc'
  unfold build at h ⊢
  cases hbody : r.body with
  | none => exact Builder.complete_pure _
  | expr pattern template =>
    rw [hbody] at h
    exact Template.build_complete halike template h
  | window level pattern template =>
    rw [hbody] at h
    obtain ⟨_, -, h₁⟩ := h.of_require
    obtain ⟨_, -, h₂⟩ := h₁.of_require
    obtain ⟨m, l, hm, hl⟩ : ∃ m l, (c'.captured? .container).bind (·.1.node?) = some m ∧
        level.field? m.kind = some l := by
      unfold IsMatch at hc'
      rw [hbody] at hc'
      obtain ⟨n, l, offset, c₁, hl, hmatch, rfl⟩ := hc'
      have hm := container_of_matchWindow? hmatch
      exact ⟨_, l, hm, by rw [Node.kind_set]; exact hl⟩
    refine Builder.complete_require ⟨m, hm, Builder.complete_require ⟨l, hl, ?_⟩⟩
    refine (Template.build_complete halike template h₂.of_bind.1).bind (fun built => ?_)
    exact Builder.complete_ite (Builder.complete_pure _) (Builder.complete_misfit _)

/-- **Either no match lacks anything, or nothing can be built.** -/
theorem complete_or_stuck (r : Recipe) (base : Captures) :
    (∀ c, r.IsMatch base c → (r.build c).Complete) ∨
      ∀ c, r.IsMatch base c → ¬ (r.build c).Succeeds := by
  by_cases h : ∃ c, r.IsMatch base c ∧ (r.build c).Succeeds
  · obtain ⟨c, hc, hbuilt⟩ := h
    exact .inl (fun c' hc' => hc.complete hc' hbuilt)
  · exact .inr (fun c hc hbuilt => h ⟨c, hc, hbuilt⟩)

/-! ### Replacing -/

/-- Nothing is replaced where nothing can be built. -/
theorem replaceInto_stuck (h : ¬ (r.build c).Succeeds) (log : EditLog) (slot : Option Slot)
    (old : Option Node) : ∃ e, r.replaceInto c log slot old = (.error e, log.discard) := by
  rcases replaceInto_cases r c log slot old with ⟨e, he, -⟩ | ⟨value, draft, hbuilt, -⟩
  · exact ⟨e, he⟩
  · exact absurd ⟨_, _, hbuilt⟩ h

/-- Where nothing is lacking, a replacement can fail only because it does not fit. -/
theorem replaceInto_misfit (h : (r.build c).Complete) {log log' : EditLog} {slot : Option Slot}
    {old : Option Node} {e : BuildError} (he : r.replaceInto c log slot old = (.error e, log')) :
    e.isMisfit = true := by
  rcases replaceInto_cases r c log slot old with ⟨e', he', hmisfit⟩ | ⟨_, _, -, -, hok | hok⟩
  · rw [he] at he'
    cases he'
    rcases hmisfit with hmisfit | ⟨d, hd⟩
    · exact hmisfit
    · cases e with
      | missing part p => exact absurd hd (h d part p)
      | misfit m => rfl
  · rw [he] at hok
    cases hok
  · rw [he] at hok
    cases hok

/-! ### Visits -/

/-- Whether a log has on record what another has. -/
def SameRecord (log log' : EditLog) : Prop := log.changed = log'.changed ∧ log.kept = log'.kept

theorem isMatch_expr {pattern : Pattern} {template : Template} {t : Tree} {c₁ : Captures}
    (hbody : r.body = .expr pattern template) (h : pattern.match? t base = some c₁) :
    r.IsMatch base (c₁.bind .site (.span t.span)).visible := by
  unfold IsMatch
  rw [hbody]
  exact ⟨t, c₁, h, rfl⟩

theorem isMatch_window {level : Level} {pattern : Pattern} {template : Template} {n : Node}
    {l : Label} {offset : Nat} {c₁ : Captures} (hbody : r.body = .window level pattern template)
    (hl : level.field? n.kind = some l) (h : matchWindow? n l offset pattern base = some c₁) :
    r.IsMatch base c₁.visible := by
  unfold IsMatch
  rw [hbody]
  exact ⟨n, l, offset, c₁, hl, h, rfl⟩

section Expr

variable {pattern : Pattern} {template : Template} (hbody : r.body = .expr pattern template)
include hbody

theorem visitExpr_complete (hr : ∀ c, r.IsMatch base c → (r.build c).Complete) (slot : Slot)
    (t : Tree) (pass : Pass) (h : pass.failure = none) :
    (r.visitExpr pattern base slot t pass).2.failure = none := by
  unfold visitExpr
  rw [h]
  dsimp only
  split
  · exact absurd ‹_› (by decide)
  · split
    · exact h
    · rename_i c₁ hmatch
      have hcomplete := hr _ (isMatch_expr hbody hmatch)
      split
      · exact h
      · exact h
      · rename_i e log he
        have hmisfit := replaceInto_misfit hcomplete he
        simp [Pass.reject, hmisfit, h]

theorem visitExpr_stuck (hr : ∀ c, r.IsMatch base c → ¬ (r.build c).Succeeds) (slot : Slot)
    (t : Tree) (pass : Pass) :
    (r.visitExpr pattern base slot t pass).1 = t ∧
      SameRecord (r.visitExpr pattern base slot t pass).2.log pass.log := by
  unfold visitExpr
  split
  · exact ⟨rfl, rfl, rfl⟩
  · split
    · exact ⟨rfl, rfl, rfl⟩
    · rename_i c₁ hmatch
      obtain ⟨e, he⟩ := replaceInto_stuck (hr _ (isMatch_expr hbody hmatch)) pass.log
        (some slot) t.node?
      dsimp only
      rw [he]
      exact ⟨rfl, rfl, rfl⟩

end Expr

section Window

variable {level : Level} {pattern : Pattern} {template : Template}
  (hbody : r.body = .window level pattern template)
include hbody

theorem rewindow_stuck (hr : ∀ c, r.IsMatch base c → ¬ (r.build c).Succeeds) {l : Label} {n : Node}
    (hl : level.field? n.kind = some l) (rounds offset : Nat) (pass : Pass) :
    (r.rewindow l pattern base rounds offset n pass).1 = n ∧
      SameRecord (r.rewindow l pattern base rounds offset n pass).2.log pass.log := by
  induction rounds generalizing offset pass with
  | zero => exact ⟨rfl, rfl, rfl⟩
  | succ rounds ih =>
    rw [rewindow]
    dsimp only
    split
    · exact ⟨rfl, rfl, rfl⟩
    · split
      · exact ⟨rfl, rfl, rfl⟩
      · rename_i c₁ hmatch
        -- no round replaces anything, so each leaves the container as it is to the next
        obtain ⟨e, he⟩ :=
          replaceInto_stuck (hr _ (isMatch_window hbody hl hmatch)) pass.log none (some n)
        rw [he]
        dsimp only
        split
        · exact ⟨rfl, rfl, rfl⟩
        · exact ih _ (pass.reject e pass.log.discard)

theorem rewindow_complete (hr : ∀ c, r.IsMatch base c → (r.build c).Complete) {l : Label} {n : Node}
    (hl : level.field? n.kind = some l) (rounds offset : Nat) (pass : Pass)
    (h : pass.failure = none) :
    (r.rewindow l pattern base rounds offset n pass).2.failure = none := by
  induction rounds generalizing offset n pass with
  | zero => exact h
  | succ rounds ih =>
    rw [rewindow]
    dsimp only
    split
    · exact h
    · split
      · exact h
      · rename_i c₁ hmatch
        have hcomplete := hr _ (isMatch_window hbody hl hmatch)
        split
        · rename_i k fs log hnew
          -- the container is still of its kind, so the next round looks at the same list
          have hkind : level.field? k = some l := by
            obtain ⟨ts, hnode⟩ := node_of_replaceInto hbody hl hmatch hnew
            rw [show k = (n.set l (.list ts)).kind from congrArg Node.kind hnode, Node.kind_set]
            exact hl
          split
          · exact h
          · exact ih (n := ⟨k, fs⟩) hkind _ _ h
        · exact h
        · exact ih hl _ _ h
        · rename_i e log he
          have hmisfit := replaceInto_misfit hcomplete he
          have hnone : (pass.reject e log).failure = none := by simp [Pass.reject, hmisfit, h]
          split
          · exact hnone
          · exact ih hl _ _ hnone

theorem visitContainer_complete (hr : ∀ c, r.IsMatch base c → (r.build c).Complete) (slot : Slot)
    (t : Tree) (pass : Pass) (h : pass.failure = none) :
    (r.visitContainer level pattern base slot t pass).2.failure = none := by
  unfold visitContainer
  split
  · exact h
  · split
    · exact h
    · split
      · exact h
      · rename_i l hl
        exact rewindow_complete hbody hr hl _ _ _ h

theorem visitContainer_stuck (hr : ∀ c, r.IsMatch base c → ¬ (r.build c).Succeeds) (slot : Slot)
    (t : Tree) (pass : Pass) :
    (r.visitContainer level pattern base slot t pass).1 = t ∧
      SameRecord (r.visitContainer level pattern base slot t pass).2.log pass.log := by
  unfold visitContainer
  split
  · exact ⟨rfl, rfl, rfl⟩
  · split
    · exact ⟨rfl, rfl, rfl⟩
    · rename_i n hn
      split
      · exact ⟨rfl, rfl, rfl⟩
      · rename_i l hl
        have hstuck := rewindow_stuck hbody hr hl ((n.list l).length + 1) 0 pass
        refine ⟨?_, hstuck.2⟩
        dsimp only
        rw [hstuck.1]
        exact Tree.tree_of_node? hn

end Window

/-! ### Files -/

theorem finish_ok {count : Nat} {file : Node} {log : EditLog} {opts : Options} {e : BuildError} :
    (r.finish c count file log opts).result ≠ .error e := by
  intro h
  unfold finish at h
  dsimp only at h
  split at h
  · split at h <;> cases h
  · split at h <;> cases h

/-- A walk does not stop where no match lacks anything. -/
theorem walkFile_complete (hr : ∀ c, r.IsMatch base c → (r.build c).Complete) (file : Node)
    (log : EditLog) : (r.walkFile base file log).2.failure = none := by
  unfold walkFile
  dsimp only
  split
  · rfl
  · rename_i hbody
    exact sweepFields_keeps (Q := fun pass => pass.failure = none)
      (visitExpr_complete hbody hr) _ _ rfl
  · rename_i hbody
    exact sweep_keeps (Q := fun pass => pass.failure = none)
      (visitContainer_complete hbody hr) _ _ rfl

/-- A walk changes nothing where nothing can be built. -/
theorem walkFile_stuck (hr : ∀ c, r.IsMatch base c → ¬ (r.build c).Succeeds) (file : Node)
    (log : EditLog) :
    (r.walkFile base file log).1 = file ∧ SameRecord (r.walkFile base file log).2.log log := by
  have keeps {visit : Visit} (hv : ∀ slot t pass, SameRecord (visit slot t pass).2.log pass.log)
      (slot : Slot) (t : Tree) (pass : Pass) (h : SameRecord pass.log log) :
      SameRecord (visit slot t pass).2.log log :=
    ⟨(hv slot t pass).1.trans h.1, (hv slot t pass).2.trans h.2⟩
  unfold walkFile
  dsimp only
  split
  · exact ⟨rfl, rfl, rfl⟩
  · rename_i hbody
    have hvisit := visitExpr_stuck hbody hr
    refine ⟨?_, sweepFields_keeps (Q := fun pass => SameRecord pass.log log)
      (keeps (fun slot t pass => (hvisit slot t pass).2)) _ _ ⟨rfl, rfl⟩⟩
    dsimp only
    rw [sweepFields_still (fun slot t pass => (hvisit slot t pass).1)]
  · rename_i hbody
    have hvisit := visitContainer_stuck hbody hr
    refine ⟨?_, sweep_keeps (Q := fun pass => SameRecord pass.log log)
      (keeps (fun slot t pass => (hvisit slot t pass).2)) _ _ ⟨rfl, rfl⟩⟩
    dsimp only
    rw [sweep_still (fun slot t pass => (hvisit slot t pass).1)]
    rfl

/-- **A recipe that fails leaves the file and the record of changes as they were**, however many
matches it tried before. -/
theorem apply_error_unchanged {file : Node} {log : EditLog} {opts : Options} {e : BuildError}
    (h : (r.apply file log opts).result = .error e) :
    (r.apply file log opts).file = file ∧
      (r.apply file log opts).log.changed = log.changed ∧
      (r.apply file log opts).log.kept = log.kept := by
  unfold apply at h ⊢
  split at h
  · cases h
  · rename_i base hbase
    dsimp only at h
    split at h
    · rename_i e' hfailure
      dsimp only
      rw [hfailure]
      -- if one match could be built, none would lack anything and the walk would not have stopped
      rcases r.complete_or_stuck base with hr | hr
      · rw [walkFile_complete hr] at hfailure
        cases hfailure
      · exact walkFile_stuck hr file log
    · exact absurd h finish_ok

/-- Here the wildcard of the replacement has no counterpart, and the first of two matches is
refused. -/
theorem apply_error_unchanged_unpaired :
    ∃ r file e, compilePatchFile "@@\n@@\n-f(x)\n+g(...)\n".toList = .ok [r] ∧
      parseFile .code "package p\n\nvar a, b = f(x), f(x)\n".toList = .ok file ∧
      (r.apply file .empty .default).result = .error e ∧
      (r.apply file .empty .default).file = file ∧
      (r.apply file .empty .default).log.changed = .empty ∧
      (r.apply file .empty .default).log.kept = .empty := by
  have hpasses : passes "@@\n@@\n-f(x)\n+g(...)\n" "package p\n\nvar a, b = f(x), f(x)\n"
      (fun r file => !(r.apply file .empty .default).result.isOk) = true := by decide +kernel
  obtain ⟨r, file, hr, hfile, hfails⟩ := exists_of_passes hpasses
  cases he : (r.apply file .empty .default).result with
  | ok count =>
    rw [he] at hfails
    cases hfails
  | error e => exact ⟨r, file, e, hr, hfile, he, apply_error_unchanged he⟩

end Recipe

end Graft
