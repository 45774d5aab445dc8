import Graft.Proofs.Match.Occurrences
import Graft.Proofs.Recipe.Conforming

/-! # One metavariable, one piece of code

Patterns of compiled patches file the runs of wildcards, and of what stands around a window, under
keys of their own (`Patch.isRun_of_recipeBody`), so what a metavariable is bound to holds throughout
a match.  All that a match meets at occurrences of one metavariable is then alike up to positions
and the comments above nodes, and it spells the same code exactly if the same optional tokens are
there (`Recipe.match?_occurrences`).  These are not compared: `x == x` matches `f(b...) == f(b)`.
-/

namespace Graft

/-! ### The patterns of recipes -/

namespace Pattern

theorem runKeysAll_eq_flatMap (ps : List Pattern) : runKeysAll ps = ps.flatMap runKeys := by
  induction ps with
  | nil => rfl
  | cons p ps ih => rw [runKeysAll, ih, List.flatMap_cons]

variable {metas : MetaTable}

mutual

/-- The pattern of a tree files runs under its wildcards. -/
theorem isDots_of_ofTree (t : Tree) : ∀ k ∈ (ofTree metas t).runKeys, k.isDots = true := by
  match t with
  | .nil | .pos _ | .str _ | .tok _ => nofun
  | .list ts =>
    have hitems := isDots_of_ofItems ts
    rw [ofTree]
    split
    · rename_i hcut
      rw [hcut] at hitems
      exact hitems.1
    · rename_i hcut
      rw [hcut] at hitems
      exact List.forall_mem_append.mpr hitems
  | .node l fs =>
    have hdoc : (ofDoc ⟨l, fs⟩).runKeys = [] := by
      unfold ofDoc
      split <;> rfl
    have hfields := isDots_of_ofFields hdoc l.fields fs
    rw [ofTree]
    split
    · nofun
    · split
      · nofun
      · split
        · rw [runKeys]
          cases l.indexOf? .body with
          | none => nofun
          | some i =>
            rw [Option.elim_some]
            intro k hk
            cases hi : (ofFields metas (ofDoc ⟨l, fs⟩) l.fields fs)[i]? with
            | none =>
              rw [hi] at hk
              cases hk
            | some p =>
              rw [hi] at hk
              rw [runKeysAll_eq_flatMap] at hfields
              exact hfields k (List.mem_flatMap.mpr ⟨p, List.mem_of_getElem? hi, hk⟩)
        · split
          · nofun
          · exact hfields

theorem isDots_of_ofItems (ts : List Tree) :
    (∀ k ∈ runKeysAll (PatternItem.cut (ofItems metas ts)).1, k.isDots = true) ∧
      ∀ k ∈ runKeysIn (PatternItem.cut (ofItems metas ts)).2, k.isDots = true := by
  match ts with
  | [] => exact ⟨nofun, nofun⟩
  | t :: ts =>
    obtain ⟨hfront, hsections⟩ := isDots_of_ofItems ts
    rw [ofItems]
    split
    · exact ⟨nofun, List.forall_mem_cons.mpr ⟨rfl, List.forall_mem_append.mpr ⟨hfront, hsections⟩⟩⟩
    · exact ⟨List.forall_mem_append.mpr ⟨isDots_of_ofTree t, hfront⟩, hsections⟩

theorem isDots_of_ofFields {doc : Pattern} (hdoc : doc.runKeys = []) (fs : List Field)
    (ts : List Tree) :
    ∀ k ∈ runKeysAll (ofFields metas doc fs ts), k.isDots = true := by
  match fs, ts with
  | [], _ => simp [ofFields, runKeysAll]
  | _ :: _, [] => nofun
  | f :: fs, t :: ts =>
    rw [ofFields, runKeysAll]
    refine List.forall_mem_append.mpr ⟨?_, isDots_of_ofFields hdoc fs ts⟩
    split
    · rw [hdoc]
      nofun
    · exact isDots_of_ofTree t

end

theorem runKeysIn_append (xs ys : List (Key × List Pattern)) :
    runKeysIn (xs ++ ys) = runKeysIn xs ++ runKeysIn ys := by
  induction xs with
  | nil => rfl
  | cons x xs ih =>
    obtain ⟨key, items⟩ := x
    rw [List.cons_append, runKeysIn, runKeysIn, ih, List.cons_append, List.append_assoc]

/-- The pattern of a window files runs under its wildcards and beside itself. -/
theorem isRun_of_ofWindow (ts : List Tree) (head tail : Bool) :
    ∀ k ∈ (ofWindow metas ts head tail).runKeys, k.isRun = true := by
  obtain ⟨hfront, hsections⟩ := @isDots_of_ofItems metas ts
  have hfront := fun k hk => Key.isRun_of_isDots (hfront k hk)
  have hbehind : ∀ k ∈ runKeysIn (if tail then [(Key.tail, [])] else []), k.isRun = true := by
    cases tail <;> simp [runKeysIn, runKeysAll, Key.isRun]
  have hback : ∀ k ∈ runKeysIn ((PatternItem.cut (ofItems metas ts)).2 ++
      if tail then [(Key.tail, [])] else []), k.isRun = true := by
    rw [runKeysIn_append]
    exact List.forall_mem_append.mpr ⟨fun k hk => Key.isRun_of_isDots (hsections k hk), hbehind⟩
  unfold ofWindow
  dsimp only
  cases head with
  | true =>
    exact List.forall_mem_cons.mpr ⟨rfl, List.forall_mem_append.mpr ⟨hfront, hback⟩⟩
  | false => exact List.forall_mem_append.mpr ⟨hfront, hback⟩

end Pattern

/-- The pattern that a body looks for. -/
def RecipeBody.pattern? : RecipeBody → Option Pattern
  | none => .none
  | expr pattern _ => some pattern
  | window _ pattern _ => some pattern

/-- **Compiled patterns file runs under keys of runs.** -/
theorem Patch.isRun_of_recipeBody (p : Patch) {pattern : Pattern}
    (h : p.recipeBody.value.pattern? = some pattern) : ∀ k ∈ pattern.runKeys, k.isRun = true := by
  unfold recipeBody at h
  dsimp only at h
  split at h
  case h_1 | h_10 | h_11 => cases h
  case h_2 =>
    cases h
    exact fun k hk => Key.isRun_of_isDots (Pattern.isDots_of_ofTree _ k hk)
  all_goals
    cases h
    exact Pattern.isRun_of_ofWindow _ _ _

namespace Recipe

theorem body_of_compile {p : Patch} {r : Recipe} (h : p.compile = .ok r) :
    r.body = p.recipeBody.value := by
  unfold Patch.compile at h
  split at h
  · cases h
  · dsimp only at h
    split at h
    · cases h
      rfl
    · cases h

theorem isRun_of_mem {text : List Char} {rs : List Recipe} (h : compilePatchFile text = .ok rs)
    {r : Recipe} (hr : r ∈ rs) {pattern : Pattern} (hpattern : r.body.pattern? = some pattern) :
    ∀ k ∈ pattern.runKeys, k.isRun = true := by
  obtain ⟨p, -, hp⟩ := exists_patch_of_mem h hr
  rw [body_of_compile hp] at hpattern
  exact p.isRun_of_recipeBody hpattern

/-- **A metavariable stands for one piece of code, up to tokens told by their positions alone**:
whatever a compiled pattern matches, it meets its metavariables in order; two values met under one
name are alike but for positions and the comments above nodes, and spell the same code exactly if
the same tokens are there; each is like the value bound in the end, and with this value in place of
all of them the matched value is as it was, but for positions and comments. -/
theorem match?_occurrences {text : List Char} {rs : List Recipe}
    (hrs : compilePatchFile text = .ok rs) {r : Recipe} (hr : r ∈ rs) {pattern : Pattern}
    (hpattern : r.body.pattern? = some pattern) {t : Tree} {base c : Captures}
    (h : pattern.match? t base = some c) :
    (pattern.occurrences t base).map (·.1) = pattern.keys.filterMap Key.metavarName? ∧
    (∀ o ∈ pattern.occurrences t base, ∀ o' ∈ pattern.occurrences t base, o.1 = o'.1 →
      o.2.SameShape o'.2 ∧
      (o.2.undocumented.sameCode o'.2.undocumented = true ↔
        o.2.undocumented.presence = o'.2.undocumented.presence)) ∧
    (∀ o ∈ pattern.occurrences t base, ∃ v s, c.metavar? o.1 = some (v, s) ∧ v.SameShape o.2) ∧
    (pattern.refill (fun name v => ((c.metavar? name).map (·.1)).getD v) t base).SameShape t := by
  have haccounts := pattern.match?_accounts (isRun_of_mem hrs hr hpattern) h
  refine ⟨haccounts.names, fun o ho o' ho' hname => ?_, haccounts.agree, ?_⟩
  · obtain ⟨v, s, hv, hshape⟩ := haccounts.agree o ho
    obtain ⟨v', s', hv', hshape'⟩ := haccounts.agree o' ho'
    have hsame : o.2.SameShape o'.2 := by
      rw [hname, hv'] at hv
      cases hv
      exact hshape.symm.trans hshape'
    refine ⟨hsame, ?_⟩
    rw [Tree.sameCode_iff_presence]
    exact and_iff_right hsame
  · refine pattern.refill_sameShape t base fun o ho => ?_
    obtain ⟨v, s, hv, hshape⟩ := haccounts.agree o ho
    rw [hv]
    exact hshape

/-- Whether a metavariable occurs twice in all, and its values pass a check. -/
def occursTwice (name : String) (check : Tree → Tree → Bool) : List (String × Tree) → Bool
  | [(x, v), (y, w)] => x == name && y == name && check v w
  | _ => false

theorem exists_of_occursTwice {name : String} {check : Tree → Tree → Bool}
    {os : List (String × Tree)} (h : occursTwice name check os = true) :
    ∃ v w, os = [(name, v), (name, w)] ∧ check v w = true := by
  unfold occursTwice at h
  split at h
  · simp only [Bool.and_eq_true, beq_iff_eq] at h
    obtain ⟨⟨rfl, rfl⟩, hcheck⟩ := h
    exact ⟨_, _, rfl, hcheck⟩
  · cases h

/-- Here a run stands between two occurrences that are laid out differently. -/
theorem match?_occurrences_around :
    ∃ r file pattern n c,
      compilePatchFile "@@\nvar x expression\n@@\n-f(x, ..., x)\n+x\n".toList = .ok [r] ∧
      parseFile .code "package p\n\nvar a = f(g(b), 1, g( b ))\n".toList = .ok file ∧
      r.body.pattern? = some pattern ∧ n ∈ file.tree.nodes ∧ pattern.match? n .empty = some c ∧
      ∃ v w, pattern.occurrences n .empty = [("x", v), ("x", w)] ∧ v.SameShape w ∧
        v.undocumented.sameCode w.undocumented = true := by
  have hpasses : passes "@@\nvar x expression\n@@\n-f(x, ..., x)\n+x\n"
      "package p\n\nvar a = f(g(b), 1, g( b ))\n" (fun r file =>
        r.body.pattern?.toList.any fun pattern => file.tree.nodes.any fun n =>
          (pattern.match? n .empty).isSome && occursTwice "x"
            (fun v w => v.undocumented.presence == w.undocumented.presence)
            (pattern.occurrences n .empty)) = true := by decide +kernel
  obtain ⟨r, file, hrs, hfile, hany⟩ := exists_of_passes hpasses
  obtain ⟨pattern, hpattern, hany⟩ := List.any_eq_true.mp hany
  rw [Option.mem_toList] at hpattern
  obtain ⟨n, hn, hmatch⟩ := List.any_eq_true.mp hany
  rw [Bool.and_eq_true] at hmatch
  obtain ⟨c, hc⟩ := Option.isSome_iff_exists.mp hmatch.1
  have hmeets := match?_occurrences hrs List.mem_cons_self hpattern hc
  refine ⟨r, file, pattern, n, c, hrs, hfile, hpattern, hn, hc, ?_⟩
  obtain ⟨v, w, hos, hpresence⟩ := exists_of_occursTwice hmatch.2
  rw [hos] at hmeets
  obtain ⟨hsame, hcode⟩ := hmeets.2.1 ("x", v) (by simp) ("x", w) (by simp) rfl
  exact ⟨v, w, hos, hsame, hcode.mpr (beq_iff_eq.mp hpresence)⟩

/-- The two sides of `f(b...) == f(b)` are met under one name and are different code. -/
theorem match?_occurrences_spread :
    ∃ r file pattern n c,
      compilePatchFile "@@\nvar x expression\n@@\n-x == x\n+true\n".toList = .ok [r] ∧
      parseFile .code "package p\n\nvar a = f(b...) == f(b)\n".toList = .ok file ∧
      r.body.pattern? = some pattern ∧ n ∈ file.tree.nodes ∧ pattern.match? n .empty = some c ∧
      ∃ v w, pattern.occurrences n .empty = [("x", v), ("x", w)] ∧
        v.undocumented.sameCode w.undocumented = false := by
  have hpasses : passes "@@\nvar x expression\n@@\n-x == x\n+true\n"
      "package p\n\nvar a = f(b...) == f(b)\n" (fun r file =>
        r.body.pattern?.toList.any fun pattern => file.tree.nodes.any fun n =>
          (pattern.match? n .empty).isSome && occursTwice "x"
            (fun v w => !v.undocumented.sameCode w.undocumented)
            (pattern.occurrences n .empty)) = true := by
    decide +kernel
  obtain ⟨r, file, hrs, hfile, hany⟩ := exists_of_passes hpasses
  obtain ⟨pattern, hpattern, hany⟩ := List.any_eq_true.mp hany
  rw [Option.mem_toList] at hpattern
  obtain ⟨n, hn, hmatch⟩ := List.any_eq_true.mp hany
  rw [Bool.and_eq_true] at hmatch
  obtain ⟨c, hc⟩ := Option.isSome_iff_exists.mp hmatch.1
  refine ⟨r, file, pattern, n, c, hrs, hfile, hpattern, hn, hc, ?_⟩
  obtain ⟨v, w, hos, hdiffer⟩ := exists_of_occursTwice hmatch.2
  exact ⟨v, w, hos, by simpa using hdiffer⟩

end Recipe

end Graft
