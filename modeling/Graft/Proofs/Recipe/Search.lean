import Graft.Proofs.Recipe.Identity
import Graft.Proofs.Recipe.Metavars
import Graft.Proofs.Recipe.Sites

/-! # Searching and applying

A search goes through a file parents first and stops at the first match (`Recipe.matchFile?`); a
walk goes through it children first, replaces on the way and looks at what it has made of the
children (`Recipe.apply`).  Still they agree.  Where the search finds nothing, all visits of the
walk find nothing either, as nothing changes before them.  Where the walk has counted nothing, it
has changed nothing, so it has tried all matches of the file as it was, and each of them was refused
for not fitting its place.

They look at the same places but for one: for stretches of statements the search also goes
into import declarations, which the walk leaves to the edits of imports.  A file that was read holds
no statements there, but a recipe may have put some there (`Recipe.apply_search_import`).
-/

namespace Graft

theorem Node.eq_of_tree {n m : Node} (h : n.tree = m.tree) : n = m := by
  obtain ⟨k, fs⟩ := n
  obtain ⟨l, gs⟩ := m
  cases h
  rfl

/-- Whether a pattern asks for something besides wildcards. -/
def Pattern.hasElement : Pattern → Bool
  | list ps => !ps.isEmpty
  | runs front sections => !front.isEmpty || sections.any (!·.2.isEmpty)
  | _ => true

/-! ### What patterns find -/

/-- Metavariables stand for expressions. -/
theorem MetaKind.isExpr_of_admits {m : MetaKind} {t : Tree} (h : m.admits t = true) :
    ∃ n : Node, t = n.tree ∧ n.kind ≠ .dots ∧ n.kind.isA .expr = true := by
  obtain ⟨n, rfl⟩ := exists_node_of_admits h
  refine ⟨n, rfl, ?_⟩
  cases m with
  | expression =>
    obtain ⟨hdots, hexpr⟩ := Bool.and_eq_true_iff.mp h
    exact ⟨bne_iff_ne.mp hdots, hexpr⟩
  | identifier =>
    rw [show n.kind = .ident from beq_iff_eq.mp h]
    exact ⟨nofun, rfl⟩

namespace Pattern

theorem ne_nil_of_matchSections {replay : Tree → Tree → Bool} {sections : List (Key × List Pattern)}
    {ts : List Tree} {cursor : Nat} {c e : Captures}
    (h : matchSections replay ts sections cursor c = some e)
    (hne : sections.any (!·.2.isEmpty) = true) :
    ts ≠ [] := by
  induction sections generalizing cursor c with
  | nil => cases hne
  | cons x rest ih =>
    obtain ⟨key, items⟩ := x
    obtain ⟨i, c₁, s, -, -, hitems, hrest⟩ := exists_of_matchSections_cons h
    rcases Bool.or_eq_true_iff.mp hne with hitem | hne
    · rintro rfl
      have hlength := length_eq_of_matchAll hitems
      rw [List.drop_nil, List.take_nil] at hlength
      rw [List.length_eq_zero_iff.mp hlength.symm] at hitem
      cases hitem
    · exact ih hrest hne

/-- Where a pattern finds something besides wildcards, there is something. -/
theorem ne_nil_of_matchItems? {p : Pattern} (hp : p.hasElement = true) {ts : List Tree}
    {c e : Captures} (h : p.matchItems? ts c = some e) : ts ≠ [] := by
  rintro rfl
  unfold matchItems? at h
  split at h
  · rename_i ps
    rw [List.length_eq_zero_iff.mp (length_eq_of_matchAll h).symm] at hp
    cases hp
  · rename_i front sections
    unfold match? at h
    simp only [matchWith, Option.ite_none_left_eq_some, Nat.not_lt] at h
    obtain ⟨c₁, hfront, hsections⟩ := Option.bind_eq_some_iff.mp h.2
    rw [List.length_eq_zero_iff.mp (Nat.le_zero.mp h.1)] at hp
    exact ne_nil_of_matchSections hsections hp rfl
  · cases h

/-- The pattern of an expression finds expressions. -/
theorem exists_expr_of_ofTree {metas : MetaTable} {k : Kind} {fs : List Tree}
    (hk : k.isA .expr = true) (hdots : (Tree.node k fs).misplacedDots metas = []) {t : Tree}
    {c e : Captures} (h : (ofTree metas (.node k fs)).match? t c = some e) :
    ∃ n : Node, t = n.tree ∧ n.kind ≠ .dots ∧ n.kind.isA .expr = true := by
  have hfields : (⟨k, fs⟩ : Node).elidedFields? = none := Node.elidedFields?_of_isExpr hk
  have hheader : (⟨k, fs⟩ : Node).elidedHeader? = none := by
    cases hheader : (⟨k, fs⟩ : Node).elidedHeader? with
    | none => rfl
    | some p =>
      rw [show k = .forStmt from Node.kind_of_elidedHeader? hheader] at hk
      cases hk
  unfold match? at h
  rw [ofTree] at h
  split at h
  · exact MetaKind.isExpr_of_admits (matchWith_metavar h).1
  · rename_i hmeta
    rw [hfields, hheader] at h
    dsimp only at h
    split at h
    · rename_i hkind
      subst hkind
      rw [Tree.misplacedDots] at hdots
      simp [hmeta, hfields, hheader] at hdots
    · rename_i hkind
      cases t with
      | node l ts =>
        simp only [matchWith, Option.ite_none_right_eq_some] at h
        obtain ⟨rfl, -⟩ := h
        exact ⟨⟨k, ts⟩, rfl, hkind, hk⟩
      | _ => cases h

end Pattern

/-- A compiled expression recipe finds expressions. -/
theorem Patch.exists_expr_of_compile {text : List Char} {p : Patch} {r : Recipe}
    (hp : p ∈ (PatchFile.read text).patches) (h : p.compile = .ok r) {pattern : Pattern}
    {template : Template} (hbody : r.body = .expr pattern template) {t : Tree} {c e : Captures}
    (hmatch : pattern.match? t c = some e) :
    ∃ n : Node, t = n.tree ∧ n.kind ≠ .dots ∧ n.kind.isA .expr = true := by
  obtain ⟨body, -, hread⟩ := PatchFile.exists_body_of_mem hp
  obtain ⟨fragment, hfragment, hminus⟩ := Side.exists_of_read hread.minus
  obtain ⟨scan, groups, -, hgroups, hwords⟩ := exists_of_parseFragment hfragment
  obtain ⟨ws, c', -, hspelled⟩ := hwords.body
  rw [show fragment = p.minus.fragment by rw [hminus]] at hspelled
  unfold compile at h
  split at h
  · cases h
  · dsimp only at h
    split at h
    · rename_i herrors
      cases h
      simp only [List.isEmpty_iff, List.append_eq_nil_iff] at herrors
      have herrors := herrors.2
      unfold recipeBody at herrors hbody
      dsimp only at herrors hbody
      split at hbody
      case h_2 x y hminus hplus =>
        rw [hminus, hplus] at herrors
        rw [hminus] at hspelled
        cases hbody
        cases hspelled with
        | expr _ hx =>
          obtain ⟨k, fs, rfl, hk⟩ := hx.isExpr
          have hdots : (Tree.node k fs).misplacedDots p.metaTable = [] := by
            simpa using (List.append_eq_nil_iff.mp herrors).1
          exact Pattern.exists_expr_of_ofTree hk hdots hmatch
      all_goals cases hbody
    · cases h

namespace Recipe

variable {r : Recipe} {base c : Captures} {log : EditLog}

/-! ### Expressions -/

/-- What a visit of an expression recipe does: nothing, or it counts a replacement, or it has one
refused. -/
theorem visitExpr_cases (r : Recipe) (pattern : Pattern) (base : Captures) (slot : Slot) (t : Tree)
    (pass : Pass) :
    r.visitExpr pattern base slot t pass = (t, pass) ∧
        (pass.failure.isSome = true ∨ pattern.match? t base = none) ∨
      ∃ c₁, pattern.match? t base = some c₁ ∧
        ((∃ log, (r.visitExpr pattern base slot t pass).2 =
            pass.advance (c₁.bind .site (.span t.span)).visible log) ∨
          ∃ e, (r.replaceInto (c₁.bind .site (.span t.span)).visible pass.log (some slot) t.node?).1
          = .error e ∧
            r.visitExpr pattern base slot t pass = (t, pass.reject e pass.log.discard)) := by
  unfold visitExpr
  split
  · exact .inl ⟨rfl, .inl ‹_›⟩
  · split
    · exact .inl ⟨rfl, .inr ‹_›⟩
    · rename_i c₁ hmatch
      refine .inr ⟨c₁, hmatch, ?_⟩
      dsimp only
      rcases replaceInto_cases r (c₁.bind .site (.span t.span)).visible pass.log
        (some slot) t.node? with
        ⟨e, he, -⟩ | ⟨value, draft, -, -, hok | hok⟩
      · rw [he]
        exact .inr ⟨e, rfl, rfl⟩
      · rw [hok]
        exact .inl ⟨_, rfl⟩
      · rw [hok]
        exact .inl ⟨_, rfl⟩

/-- A replacement that neither counts nor stops a walk was refused for not fitting. -/
theorem exists_misfit {α : Type} {x : Except BuildError α} {e : BuildError}
    (h : x = .error e) {pass : Pass} (hfailure : (pass.reject e log).failure = none) :
    ∃ m, x = .error (.misfit m) := by
  cases e with
  | misfit m => exact ⟨m, h⟩
  | missing part p => cases hfailure

theorem visitExpr_settles (hlog : log.discard = log) (pattern : Pattern) :
    (r.visitExpr pattern base).Settles log fun slot n => ∀ c₁, pattern.match? n base = some c₁ →
      ∃ m, (r.replaceInto (c₁.bind .site (.span n.span)).visible log (some slot) (some n)).1 =
        .error (.misfit m) where
  grows slot t pass := by
    rcases visitExpr_cases r pattern base slot t pass with
      ⟨hidle, -⟩ | ⟨c₁, -, ⟨log, hadvance⟩ | ⟨e, -, hreject⟩⟩
    · simp only [hidle, Nat.le_refl]
    · rw [hadvance]
      exact Nat.le_succ _
    · rw [hreject]
      exact Nat.le_refl _
  stops slot t pass h := by
    unfold visitExpr
    rw [if_pos h]
    exact h
  still slot n pass hpass hfailure hcount := by
    rcases visitExpr_cases r pattern base slot n pass with
      ⟨hidle, hwhy⟩ | ⟨c₁, hmatch, ⟨log, hadvance⟩ | ⟨e, he, hreject⟩⟩
    · rw [hidle] at hfailure ⊢
      rw [hfailure] at hwhy
      refine ⟨rfl, hpass, fun c₁ hc₁ => ?_⟩
      rw [hwhy.resolve_left nofun] at hc₁
      cases hc₁
    · rw [hadvance] at hcount
      exact absurd hcount (Nat.succ_ne_self _)
    · rw [hreject] at hfailure ⊢
      rw [hpass] at he
      refine ⟨rfl, by rw [hpass]; exact hlog, fun c₁' hc₁' => ?_⟩
      rw [hmatch] at hc₁'
      cases hc₁'
      exact exists_misfit he hfailure

/-! ### Windows -/

section Window

variable {level : Level} {pattern : Pattern} {template : Template}
  (hbody : r.body = .window level pattern template)
include hbody

/-- What one round does: nothing, or it counts a replacement and the rounds go on with what came of
it, or it has one refused and they go on with the container as it was. -/
theorem rewindow_cases (base : Captures) {l : Label} {n : Node} (hl : level.field? n.kind = some l)
    (rounds offset : Nat) (pass : Pass) :
    r.rewindow l pattern base (rounds + 1) offset n pass = (n, pass) ∧
        ((n.list l).length ≤ offset ∨ matchWindow? n l offset pattern base = none) ∨
      ∃ c₁, matchWindow? n l offset pattern base = some c₁ ∧ ∃ rounds' ≤ rounds, ∃ offset',
        ((∃ n' log, level.field? n'.kind = some l ∧ r.rewindow l pattern base (rounds + 1)
            offset n pass = r.rewindow l pattern base rounds' offset' n'
            (pass.advance c₁.visible log)) ∨
          ∃ e, (r.replaceInto c₁.visible pass.log none (some n)).1 = .error e ∧
            r.rewindow l pattern base (rounds + 1) offset n pass =
              r.rewindow l pattern base rounds' offset' n (pass.reject e pass.log.discard)) := by
  rw [rewindow]
  dsimp only
  split
  · exact .inl ⟨rfl, .inl ‹_›⟩
  · split
    · exact .inl ⟨rfl, .inr ‹_›⟩
    · rename_i c₁ hmatch
      refine .inr ⟨c₁, hmatch, ?_⟩
      have hm := container_of_matchWindow? hmatch
      rcases replaceInto_cases r c₁.visible pass.log none (some n) with
        ⟨e, he, -⟩ | ⟨value, draft, hbuilt, -, hok | hok⟩
      · rw [he]
        dsimp only
        split
        · exact ⟨0, Nat.zero_le _, 0, .inr ⟨e, rfl, rfl⟩⟩
        · exact ⟨rounds, Nat.le_refl _, _, .inr ⟨e, rfl, rfl⟩⟩
      · rw [hok]
        exact ⟨rounds, Nat.le_refl _, _, .inl ⟨n, _, hl, rfl⟩⟩
      · obtain ⟨l', hl', hvalue⟩ := exists_of_build_window hbody hm hbuilt
        obtain ⟨n', rfl, hkind⟩ : ∃ n' : Node, value = n'.tree ∧ n'.kind = n.kind := by
          rcases hvalue with rfl | ⟨ts, rfl⟩
          · exact ⟨_, rfl, Node.kind_set ..⟩
          · exact ⟨_, rfl, by rw [Node.kind_set, Node.kind_set]⟩
        rw [hok, Node.tree]
        dsimp only
        split
        · exact ⟨0, Nat.zero_le _, 0, .inl ⟨n', _, by rw [hkind]; exact hl, rfl⟩⟩
        · exact ⟨rounds, Nat.le_refl _, _, .inl ⟨n', _, by rw [hkind]; exact hl, rfl⟩⟩

/-- Counts only grow from round to round, and nothing takes a failure back. -/
theorem rewindow_grows (base : Captures) {l : Label} {n : Node} (hl : level.field? n.kind = some l)
    (rounds offset : Nat) (pass : Pass) :
    pass.count ≤ (r.rewindow l pattern base rounds offset n pass).2.count ∧
      (pass.failure.isSome = true →
        (r.rewindow l pattern base rounds offset n pass).2.failure.isSome = true) := by
  induction rounds using Nat.strongRecOn generalizing offset n pass with
  | ind rounds ih =>
    cases rounds with
    | zero => exact ⟨Nat.le_refl _, id⟩
    | succ rounds =>
      rcases rewindow_cases hbody base hl rounds offset pass with
        ⟨hidle, -⟩ | ⟨c₁, -, rounds', hle, offset', ⟨n', log, hl', hnext⟩ | ⟨e, -, hnext⟩⟩
      · rw [hidle]
        exact ⟨Nat.le_refl _, id⟩
      · obtain ⟨hgrows, hstops⟩ := ih rounds' (by omega) hl' offset' (pass.advance c₁.visible log)
        rw [hnext]
        exact ⟨Nat.le_trans (Nat.le_succ _) hgrows, hstops⟩
      · obtain ⟨hgrows, hstops⟩ := ih rounds' (by omega) hl offset' (pass.reject e pass.log.discard)
        rw [hnext]
        refine ⟨hgrows, fun hfailure => hstops ?_⟩
        unfold Pass.reject
        dsimp only
        split
        · exact hfailure
        · rfl

/-- Rounds that have counted nothing and were not stopped have changed nothing, and what the first
of them found was refused. -/
theorem rewindow_settles (hlog : log.discard = log) {l : Label} {n : Node}
    (hl : level.field? n.kind = some l) (rounds offset : Nat) {pass : Pass} (hpass : pass.log = log)
    (hfailure : (r.rewindow l pattern base rounds offset n pass).2.failure = none)
    (hcount : (r.rewindow l pattern base rounds offset n pass).2.count = pass.count) :
    (r.rewindow l pattern base rounds offset n pass).1 = n ∧
      (r.rewindow l pattern base rounds offset n pass).2.log = log ∧
      (0 < rounds → offset < (n.list l).length → ∀ c₁, matchWindow? n l offset pattern
        base = some c₁ →
        ∃ m, (r.replaceInto c₁.visible log none (some n)).1 = .error (.misfit m)) := by
  induction rounds using Nat.strongRecOn generalizing offset pass with
  | ind rounds ih =>
    cases rounds with
    | zero => exact ⟨rfl, hpass, nofun⟩
    | succ rounds =>
      rcases rewindow_cases hbody base hl rounds offset pass with
        ⟨hidle, hwhy⟩ | ⟨c₁, hmatch, rounds', hle, offset', ⟨n', log', hl', hnext⟩ | ⟨e, he, hnext⟩⟩
      · rw [hidle]
        refine ⟨rfl, hpass, fun _ hlt c₁ hc₁ => ?_⟩
        rw [hwhy.resolve_left (Nat.not_le.mpr hlt)] at hc₁
        cases hc₁
      · rw [hnext] at hcount
        have hgrows := (rewindow_grows hbody base hl' rounds' offset'
          (pass.advance c₁.visible log')).1
        rw [hcount] at hgrows
        exact absurd hgrows (Nat.not_succ_le_self _)
      · rw [hnext] at hfailure hcount ⊢
        rw [hpass] at hfailure hcount he ⊢
        obtain ⟨hnode, hlog', -⟩ := ih rounds' (by omega) offset' hlog hfailure hcount
        refine ⟨hnode, hlog', fun _ _ c₁' hc₁' => ?_⟩
        rw [hmatch] at hc₁'
        cases hc₁'
        have hstops := (rewindow_grows hbody base hl rounds' offset' (pass.reject e log.discard)).2
        rw [hfailure] at hstops
        exact exists_misfit he (by simpa using hstops)

omit hbody in
theorem visitContainer_eq {pass : Pass} (h : ¬ pass.failure.isSome = true)
    (slot : Slot) (n : Node) :
    r.visitContainer level pattern base slot n pass =
      match level.field? n.kind with
      | none => (n.tree, pass)
      | some l =>
        let (n, pass) := r.rewindow l pattern base ((n.list l).length + 1) 0 n pass
        (n.tree, pass) := by
  rw [visitContainer, if_neg h]
  rfl

theorem visitContainer_settles (hlog : log.discard = log) :
    (r.visitContainer level pattern base).Settles log fun _ n => ∀ l, level.field? n.kind = some l →
      0 < (n.list l).length → ∀ c₁, matchWindow? n l 0 pattern base = some c₁ →
        ∃ m, (r.replaceInto c₁.visible log none (some n)).1 = .error (.misfit m) where
  grows slot t pass := by
    unfold visitContainer
    split
    · exact Nat.le_refl _
    · split
      · exact Nat.le_refl _
      · split
        · exact Nat.le_refl _
        · rename_i l hl
          exact (rewindow_grows hbody base hl _ _ _).1
  stops slot t pass h := by
    unfold visitContainer
    rw [if_pos h]
    exact h
  still slot n pass hpass hfailure hcount := by
    by_cases hstopped : pass.failure.isSome = true
    · rw [visitContainer, if_pos hstopped] at hfailure
      rw [hfailure] at hstopped
      cases hstopped
    · rw [visitContainer_eq hstopped] at hfailure hcount ⊢
      cases hl : level.field? n.kind with
      | none => exact ⟨rfl, hpass, nofun⟩
      | some l =>
        rw [hl] at hfailure hcount
        obtain ⟨hnode, hlog', hrefused⟩ := rewindow_settles hbody hlog hl _ 0 hpass hfailure hcount
        refine ⟨congrArg Node.tree hnode, hlog', ?_⟩
        rintro l' ⟨⟩ hlength
        exact hrefused (Nat.succ_pos _) hlength

end Window

theorem visitExpr_of_no_match {pattern : Pattern} {t : Tree}
    (h : pattern.match? t base = none) (slot : Slot) (pass : Pass) :
    r.visitExpr pattern base slot t pass = (t, pass) := by
  unfold visitExpr
  rw [h]
  split <;> rfl

theorem visitContainer_of_no_match {level : Level} {pattern : Pattern} {n : Node}
    (h : ∀ l, level.field? n.kind = some l → matchWindow? n l 0 pattern base = none) (slot : Slot)
    (pass : Pass) : r.visitContainer level pattern base slot n pass = (n.tree, pass) := by
  by_cases hstopped : pass.failure.isSome = true
  · rw [visitContainer, if_pos hstopped]
  · rw [visitContainer_eq hstopped]
    split
    · rfl
    · rename_i l hl
      rw [rewindow]
      dsimp only
      rw [h l hl]
      split <;> rfl

/-! ### Files -/

/-- What one edit of the header does if it touches nothing, a series of them does. -/
theorem foldl_untouched {α : Type} {f : Node × EditLog × Bool → α → Node × EditLog × Bool}
    (hf : ∀ s a, (f s a).2.2 = false → f s a = s) (as : List α) {s : Node × EditLog × Bool}
    (h : (as.foldl f s).2.2 = false) : as.foldl f s = s := by
  induction as generalizing s with
  | nil => rfl
  | cons a as ih =>
    have hlater : as.foldl f (f s a) = f s a := ih h
    rw [List.foldl_cons, hlater] at h ⊢
    exact hf s a h

theorem applyTo_untouched {edit : Option FileEdit} {file : Node} {log : EditLog}
    (h : (FileEdit.applyTo edit file log).2.2 = false) :
    FileEdit.applyTo edit file log = (file, log, false) := by
  cases edit with
  | none => rfl
  | some e => cases h

theorem dropImport_untouched {incoming : List String} {file : Node} {log : EditLog} {path : String}
    (h : (dropImport c incoming file log path).2.2 = false) :
    dropImport c incoming file log path = (file, log, false) := by
  unfold dropImport at h ⊢
  dsimp only at h ⊢
  split
  · rfl
  · rename_i hdrop
    rw [if_neg hdrop] at h
    exact applyTo_untouched h

theorem ensureImport_untouched {file : Node} {log : EditLog} {path : String} {name : Option String}
    (h : (r.ensureImport file log path name).2.2 = false) :
    r.ensureImport file log path name = (file, log, false) := by
  unfold ensureImport at h ⊢
  split
  · rename_i hmatched
    rw [if_pos hmatched] at h
    exact applyTo_untouched h
  · rename_i hmatched
    rw [if_neg hmatched] at h
    split
    · rfl
    · rename_i hpresent
      rw [if_neg hpresent] at h
      cases h

/-- Imports that were not touched are as they were. -/
theorem updateImports_untouched {file : Node} {log : EditLog}
    (h : (r.updateImports c file log).2.2 = false) :
    r.updateImports c file log = (file, log, false) := by
  unfold updateImports at h ⊢
  dsimp only at h ⊢
  have hwanted := foldl_untouched (by
    rintro ⟨file, log, touched⟩ ⟨path, name⟩ h
    obtain ⟨rfl, h⟩ := Bool.or_eq_false_iff.mp h
    dsimp only
    rw [ensureImport_untouched h]
    rfl) _ h
  rw [hwanted] at h ⊢
  exact foldl_untouched (by
    rintro ⟨file, log, touched⟩ path h
    obtain ⟨rfl, h⟩ := Bool.or_eq_false_iff.mp h
    dsimp only
    rw [dropImport_untouched h]
    rfl) _ h

theorem updatePackage_untouched {file : Node} {log : EditLog}
    (h : (r.updatePackage file log).2.2 = false) :
    r.updatePackage file log = (file, log, false) := by
  unfold updatePackage at h ⊢
  split
  · rename_i hname hold
    rw [hname, hold] at h
    dsimp only at h
    split
    · rfl
    · rename_i hsame
      rw [if_neg hsame] at h
      cases h
  · rfl

/-- A walk over a file in which a search finds nothing does nothing. -/
theorem walkFile_of_no_match {file : Node} (hkind : file.kind = .file)
    (hbase : r.matchHeader? file = some base) (h : r.matchFile? file = none) :
    r.walkFile base file log = (file, ⟨log, 0, none, none⟩) := by
  rw [matchFile?, hbase, Option.bind_eq_bind, Option.bind_some] at h
  unfold walkFile
  split
  · rfl
  · rename_i pattern template hbody
    rw [hbody] at h
    dsimp only at h
    rw [if_neg (by simp [Node.isImportDecl, hkind]), List.findSome?_eq_none_iff] at h
    dsimp only
    rw [sweepFields_of_sites]
    intro x hx pass
    have hcode := (Tree.perm_sitesFields _ _).subset (List.mem_map_of_mem hx)
    refine visitExpr_of_no_match ?_ x.1 pass
    simpa using h _ (List.mem_filter.mp hcode).1
  · rename_i level pattern template hbody
    rw [hbody] at h
    dsimp only at h
    rw [List.findSome?_eq_none_iff] at h
    dsimp only
    rw [sweep_of_sites]
    · rfl
    intro x hx pass
    have hcode := (Tree.perm_sites _ _).subset (List.mem_map_of_mem hx)
    obtain ⟨n, hn, hnode⟩ :=
      List.mem_map.mp ((Tree.codeNodes_sublist _).subset (List.mem_filter.mp hcode).1)
    obtain rfl := Node.eq_of_tree hnode
    refine visitContainer_of_no_match (fun l hl => ?_) x.1 pass
    have hnone := h _ hn
    rwa [hl] at hnone

/-- Whether `c` is the first match that a walk over a file as it is tries to replace at the node
`n`; where the node itself is to be replaced, `slot` is the slot it stands in. -/
def IsAttempt (r : Recipe) (base : Captures) (file : Node) (slot : Option Slot) (n : Node)
    (c : Captures) :
    Prop :=
  match r.body with
  | .none => False
  | .expr pattern _ =>
    ∃ s c₁, slot = some s ∧ (s, n) ∈ Tree.sitesFields file.kind.fields file.fields ∧
      pattern.match? n base = some c₁ ∧ c = (c₁.bind .site (.span n.span)).visible
  | .window level pattern _ => ∃ s l c₁, slot = none ∧ (s, n) ∈ file.tree.sites (.node .file) ∧
      level.field? n.kind = some l ∧ 0 < (n.list l).length ∧
      matchWindow? n l 0 pattern base = some c₁ ∧
      c = c₁.visible

/-- Code other than import declarations is visited. -/
theorem exists_site_of_perm {sites : List (Slot × Node)} {code : List Tree}
    (h : (sites.map (·.2.tree)).Perm (code.filter (!·.isImportDecl))) {n : Node}
    (hn : n.tree ∈ code) (hkind : n.kind ≠ .genDecl) : ∃ s, (s, n) ∈ sites := by
  have hdecl : n.tree.isImportDecl = false := by
    simp [Tree.isImportDecl, Node.tree, Tree.node?, Node.isImportDecl, hkind]
  have hcode : n.tree ∈ code.filter (!·.isImportDecl) :=
    List.mem_filter.mpr ⟨hn, by rw [hdecl]; rfl⟩
  obtain ⟨⟨s, m⟩, hm, hnode⟩ := List.mem_map.mp (h.symm.subset hcode)
  obtain rfl := Node.eq_of_tree hnode
  exact ⟨s, hm⟩

theorem length_pos_of_matchWindow? {n : Node} {l : Label} {pattern : Pattern}
    (hp : pattern.hasElement = true) (h : matchWindow? n l 0 pattern base = some c) :
    0 < (n.list l).length := by
  unfold matchWindow? at h
  dsimp only at h
  rw [if_neg (Nat.not_lt_zero _)] at h
  obtain ⟨c₁, h₁, -⟩ := Option.map_eq_some_iff.mp h
  rw [List.drop_zero] at h₁
  exact List.length_pos_iff.mpr (Pattern.ne_nil_of_matchItems? hp h₁)

/-- A container of a conforming file that is in no import declaration is visited. -/
theorem exists_site_of_container {file : Node} (hkind : file.kind = .file)
    (hfile : file.tree.conforms = true) {level : Level}
    (hfree : level = .stmts → ∀ d ∈ file.tree.nodes, d.isImportDecl = true →
      ∀ n ∈ d.tree.nodes, n.kind ≠ .blockStmt ∧ n.kind ≠ .caseClause)
    {n : Node} (hn : n ∈ file.tree.nodes) {l : Label} (hl : level.field? n.kind = some l) :
    ∃ s, (s, n) ∈ file.tree.sites (.node .file) := by
  have hstmts (hlevel : level = .stmts) (hcontainer : n.kind = .blockStmt ∨ n.kind = .caseClause) :
      ∃ s, (s, n) ∈ file.tree.sites (.node .file) := by
    refine exists_site_of_perm (Tree.perm_sites _ _)
      (Tree.mem_codeNodes_of_mem_nodes ?_ _ hfile ?_ hn) ?_
    · rcases hcontainer with hk | hk <;> rw [hk] <;> rfl
    · intro d hd hdecl hmem
      obtain ⟨hblock, hclause⟩ := hfree hlevel d hd hdecl n hmem
      exact hcontainer.elim hblock hclause
    · rcases hcontainer with hk | hk <;> rw [hk] <;> nofun
  unfold Level.field? at hl
  split at hl
  · rename_i hk
    exact hstmts rfl (.inl hk)
  · rename_i hk
    exact hstmts rfl (.inr hk)
  · -- a file holds no other file
    rename_i hk
    have hself : n = file := by
      rw [Node.tree, Tree.nodes_node] at hn
      rcases List.mem_cons.mp hn with rfl | hn
      · rfl
      · obtain ⟨t, ht, hn⟩ := Tree.mem_nodesAll.mp hn
        obtain ⟨f, hf, hfits⟩ := Tree.exists_slot_of_mem hfile ht
        exact absurd hk (Tree.ne_file_of_accepts hf ((Tree.conforms_node.mp hfile).2.2 t ht) hfits n
          hn)
    rw [hself]
    refine ⟨.node .file, ?_⟩
    rw [Node.tree, Tree.sites, if_neg (by simp [Node.isImportDecl, hkind])]
    exact List.mem_append_right _ List.mem_cons_self
  · cases hl

/-- **Where a search finds something, a walk has something to try.** -/
theorem exists_attempt {text : List Char} {p : Patch} (hp : p ∈ (PatchFile.read text).patches)
    (hr : p.compile = .ok r) {file : Node} (hkind : file.kind = .file)
    (hfile : file.tree.conforms = true) {pattern : Pattern}
    (hpattern : r.body.pattern? = some pattern) (helement : pattern.hasElement = true)
    (hfree : r.level? = some .stmts → ∀ d ∈ file.tree.nodes, d.isImportDecl = true →
      ∀ n ∈ d.tree.nodes, n.kind ≠ .blockStmt ∧ n.kind ≠ .caseClause)
    (hbase : r.matchHeader? file = some base) (h : (r.matchFile? file).isSome = true) :
    ∃ slot n c, r.IsAttempt base file slot n c := by
  obtain ⟨c, h⟩ := Option.isSome_iff_exists.mp h
  rw [matchFile?, hbase, Option.bind_eq_bind, Option.bind_some] at h
  unfold IsAttempt
  split
  · rename_i hbody
    rw [hbody] at hpattern
    cases hpattern
  · rename_i pattern' template hbody
    rw [hbody] at h
    dsimp only at h
    rw [if_neg (by simp [Node.isImportDecl, hkind])] at h
    obtain ⟨t, ht, hfound⟩ := List.exists_of_findSome?_eq_some h
    obtain ⟨c₁, hmatch, -⟩ := Option.map_eq_some_iff.mp hfound
    obtain ⟨n, rfl, -, hexpr⟩ := Patch.exists_expr_of_compile hp hr hbody hmatch
    have hne : n.kind ≠ .genDecl := by
      intro hdecl
      rw [hdecl] at hexpr
      cases hexpr
    obtain ⟨s, hs⟩ := exists_site_of_perm (Tree.perm_sitesFields _ _) ht hne
    exact ⟨some s, n, _, s, c₁, rfl, hs, hmatch, rfl⟩
  · rename_i level pattern' template hbody
    rw [hbody] at h hpattern
    cases hpattern
    dsimp only at h
    obtain ⟨n, hn, hfound⟩ := List.exists_of_findSome?_eq_some h
    obtain ⟨l, hl, hmatch⟩ := Option.bind_eq_some_iff.mp hfound
    have hlevel : level = .stmts → r.level? = some .stmts := by
      rintro rfl
      rw [level?, hbody]
    obtain ⟨s, hs⟩ := exists_site_of_container hkind hfile (fun h => hfree (hlevel h)) hn hl
    exact ⟨none, n, _, s, l, c, rfl, hs, hl, length_pos_of_matchWindow? helement hmatch, hmatch,
      rfl⟩

/-- **A walk that has counted nothing and was not stopped leaves file and log as they were**, and
all that it tried first was refused for not fitting. -/
theorem walkFile_settles {file : Node} (hlog : log.discard = log)
    (hfailure : (r.walkFile base file log).2.failure = none)
    (hcount : (r.walkFile base file log).2.count = 0) :
    (r.walkFile base file log).1 = file ∧ (r.walkFile base file log).2.log = log ∧
      ∀ slot n c, r.IsAttempt base file slot n c →
        ∃ m, (r.replaceInto c log slot (some n)).1 = .error (.misfit m) := by
  unfold walkFile IsAttempt at *
  cases hbody : r.body with
  | none => simp
  | expr pattern template =>
    simp only [hbody] at hfailure hcount ⊢
    obtain ⟨hfields, hlog', hrefused⟩ :=
      sweepFields_settles (visitExpr_settles hlog pattern) _ _ rfl hfailure hcount
    refine ⟨by rw [hfields], hlog', ?_⟩
    rintro slot n c ⟨s, c₁, rfl, hs, hmatch, rfl⟩
    exact hrefused (s, n) hs c₁ hmatch
  | window level pattern template =>
    simp only [hbody] at hfailure hcount ⊢
    obtain ⟨htree, hlog', hrefused⟩ :=
      sweep_settles (visitContainer_settles hbody hlog) _ _ rfl hfailure hcount
    refine ⟨by rw [htree]; rfl, hlog', ?_⟩
    rintro slot n c ⟨s, l, c₁, rfl, hs, hl, hlength, hmatch, rfl⟩
    exact hrefused (s, n) hs l hl hlength c₁ hmatch

/-- Whether a recipe has nothing but imports or the package clause. -/
def isBodyless (r : Recipe) : Bool :=
  match r.body with
  | .none => true
  | _ => false

/-- The file, the log and whether anything was touched after the edits of imports. -/
def importsDone (r : Recipe) (c : Captures) (file : Node) (log : EditLog) (opts : Options) :
    Node × EditLog × Bool :=
      if opts.fixImports then r.updateImports c file log else (file, log, false)

theorem importsDone_untouched {file : Node} {opts : Options}
    (h : (r.importsDone c file log opts).2.2 = false) :
    r.importsDone c file log opts = (file, log, false) := by
  unfold importsDone at h ⊢
  split
  · rename_i hfix
    rw [if_pos hfix] at h
    exact updateImports_untouched h
  · rfl

/-- Bringing a header into line, step by step. -/
theorem finish_eq (r : Recipe) (c : Captures) (count : Nat) (file : Node) (log : EditLog)
    (opts : Options) :
    r.finish c count file log opts =
      if count > 0 || r.isBodyless then
        let imports := r.importsDone c file log opts
        let package := r.updatePackage imports.1 imports.2.1
        ⟨.ok (if r.isBodyless && (imports.2.2 || package.2.2) then 1 else count), package.1,
          package.2.1.commit⟩
      else ⟨.ok count, file, log⟩ := rfl

/-- A walk that has counted something comes to something. -/
theorem count_of_finish {count : Nat} {file : Node} {opts : Options}
    (h : (r.finish c count file log opts).result = .ok 0) : count = 0 := by
  rw [finish_eq] at h
  split at h
  · dsimp only at h
    split at h
    · cases h
    · exact Except.ok.inj h
  · exact Except.ok.inj h

/-- Bringing a header into line comes to nothing only if the file does not change. -/
theorem finish_eq_of_zero {count : Nat} {file : Node} {opts : Options}
    (h : (r.finish c count file log opts).result = .ok 0) :
    r.finish c count file log opts = ⟨.ok 0, file, if r.isBodyless then log.commit else log⟩ := by
  obtain rfl := count_of_finish h
  rw [finish_eq] at h ⊢
  split
  · rename_i hfinish
    rw [if_pos hfinish] at h
    have hbodyless : r.isBodyless = true := by simpa using hfinish
    dsimp only at h ⊢
    split at h
    · cases h
    · rename_i htouched
      rw [hbodyless, Bool.true_and, Bool.or_eq_true, not_or, Bool.not_eq_true,
        Bool.not_eq_true] at htouched
      have himports := importsDone_untouched htouched.1
      rw [himports] at htouched ⊢
      rw [updatePackage_untouched htouched.2]
      simp [hbodyless]
  · rename_i hfinish
    simp_all

/-- Nothing changes then, once the log holds no loose marks. -/
theorem finish_zero (hlog : log.discard = log) {count : Nat} {file : Node} {opts : Options}
    (h : (r.finish c count file log opts).result = .ok 0) :
    r.finish c count file log opts = ⟨.ok 0, file, log⟩ := by
  have hcommit : log.commit = log := by
    rw [← hlog]
    rfl
  rw [finish_eq_of_zero h, hcommit, ite_self]

/-- A recipe that comes to nothing did not find its header, or its walk came to nothing. -/
theorem apply_zero (hlog : log.discard = log) {file : Node} {opts : Options}
    (h : (r.apply file log opts).result = .ok 0) :
    r.apply file log opts = ⟨.ok 0, file, log⟩ ∧
      ∀ base, r.matchHeader? file = some base → (r.walkFile base file log).2.failure = none ∧
        (r.walkFile base file log).2.count = 0 := by
  unfold apply at h ⊢
  cases hheader : r.matchHeader? file with
  | none => exact ⟨rfl, nofun⟩
  | some base =>
    rw [hheader] at h
    dsimp only at h ⊢
    cases hfailure : (r.walkFile base file log).2.failure with
    | some e =>
      rw [hfailure] at h
      cases h
    | none =>
      rw [hfailure] at h
      dsimp only at h ⊢
      have hcount := count_of_finish h
      obtain ⟨hfile, hlog', -⟩ := walkFile_settles hlog hfailure hcount
      rw [hfile, hlog'] at h ⊢
      refine ⟨finish_zero hlog h, ?_⟩
      rintro base' ⟨⟩
      exact ⟨hfailure, hcount⟩

/-- **Searching and applying agree.**  Where a search finds nothing, a recipe comes to nothing; a
recipe that comes to nothing changes neither the file nor a log without pending marks; and where a
search finds something, for a pattern that asks for more than wildcards, a recipe comes to nothing
only if a replacement was refused for not fitting its place.  The last takes, for patterns of
statements, that no import declaration holds any. -/
theorem apply_search {text : List Char} {rs : List Recipe} (hrs : compilePatchFile text = .ok rs)
    (hr : r ∈ rs) {file : Node} (hkind : file.kind = .file) (hfile : file.tree.conforms = true)
    (hmarked : log.marked = .empty) (hspared : log.spared = .empty) (opts : Options) :
    (r.matchFile? file = none → (r.apply file log opts).result = .ok 0) ∧
    ((r.apply file log opts).result = .ok 0 → r.apply file log opts = ⟨.ok 0, file, log⟩) ∧
    ∀ pattern, r.body.pattern? = some pattern → pattern.hasElement = true →
      (r.level? = some .stmts → ∀ d ∈ file.tree.nodes, d.isImportDecl = true →
        ∀ n ∈ d.tree.nodes, n.kind ≠ .blockStmt ∧ n.kind ≠ .caseClause) →
      (r.matchFile? file).isSome = true → (r.apply file log opts).result = .ok 0 →
        ∃ base slot n c m, r.matchHeader? file = some base ∧ r.IsAttempt base file slot n c ∧
          (r.replaceInto c log slot (some n)).1 = .error (.misfit m) := by
  have hlog := log.discard_eq hmarked hspared
  refine ⟨fun hnone => ?_, fun hzero => (apply_zero hlog hzero).1, ?_⟩
  · unfold apply
    cases hbase : r.matchHeader? file with
    | none => rfl
    | some base =>
      have hbody : r.isBodyless = false := by
        cases hbody : r.body with
        | none => simp [matchFile?, hbase, hbody] at hnone
        | expr pattern template => simp [isBodyless, hbody]
        | window level pattern template => simp [isBodyless, hbody]
      dsimp only
      rw [walkFile_of_no_match hkind hbase hnone]
      dsimp only
      rw [finish_eq, hbody]
      rfl
  · intro pattern hpattern helement hfree hsome hzero
    obtain ⟨p, hp, hcompile⟩ := exists_patch_of_mem hrs hr
    obtain ⟨base, hbase⟩ : ∃ base, r.matchHeader? file = some base := by
      cases hbase : r.matchHeader? file with
      | none => simp [matchFile?, hbase] at hsome
      | some base => exact ⟨base, rfl⟩
    obtain ⟨slot, n, c, hattempt⟩ :=
      exists_attempt hp hcompile hkind hfile hpattern helement hfree hbase hsome
    obtain ⟨hfailure, hcount⟩ := (apply_zero hlog hzero).2 base hbase
    obtain ⟨m, hm⟩ := (walkFile_settles hlog hfailure hcount).2.2 slot n c hattempt
    exact ⟨base, slot, n, c, m, hbase, hattempt, hm⟩

/-- A call does not fit where a function has its name, so the search finds what the recipe cannot
replace. -/
theorem apply_search_name :
    ∃ r file, compilePatchFile "@@\n@@\n-f\n+g()\n".toList = .ok [r] ∧
      parseFile .code "package p\n\nfunc f() \x7b\x7d\n".toList = .ok file ∧
      (r.matchFile? file).isSome = true ∧ r.apply file .empty .default = ⟨.ok 0, file, .empty⟩ ∧
      ∃ base slot n c m, r.matchHeader? file = some base ∧ r.IsAttempt base file slot n c ∧
        (r.replaceInto c .empty slot (some n)).1 = .error (.misfit m) := by
  have hpasses : passes "@@\n@@\n-f\n+g()\n" "package p\n\nfunc f() \x7b\x7d\n" (fun r file =>
      r.body.pattern?.any fun pattern => (r.apply file .empty .default).result.toOption.any
        fun count =>
        count == 0 && file.kind == .file && file.tree.conforms && (r.matchFile? file).isSome &&
          pattern.hasElement && r.level?.isNone) = true := by decide +kernel
  obtain ⟨r, file, hrs, hfile, hcheck⟩ := exists_of_passes hpasses
  obtain ⟨pattern, hpattern, hcheck⟩ := (Option.any_eq_true _ _).mp hcheck
  obtain ⟨count, hzero, hcheck⟩ := exists_of_any_toOption hcheck
  simp only [Bool.and_eq_true, beq_iff_eq, Option.isNone_iff_eq_none] at hcheck
  obtain ⟨⟨⟨⟨⟨rfl, hkind⟩, hconforms⟩, hfound⟩, helement⟩, hlevel⟩ := hcheck
  have hagree := apply_search hrs List.mem_cons_self hkind hconforms
    (rfl : EditLog.empty.marked = .empty) rfl .default
  refine ⟨r, file, hrs, hfile, hfound, hagree.2.1 hzero,
    hagree.2.2 pattern hpattern helement (fun hstmts => ?_) hfound hzero⟩
  rw [hlevel] at hstmts
  cases hstmts

/-- Whether a recipe finds stretches in a file none of whose sites is a list of its level, and
replaces none. -/
def missesStretches (r : Recipe) (file : Node) : Bool :=
  match r.body, (r.apply file .empty .default).result with
  | .window level pattern _, .ok 0 =>
    file.kind == .file && file.tree.conforms && pattern.hasElement && (r.matchFile? file).isSome &&
      (file.tree.sites (.node .file)).all fun x => (level.field? x.2.kind).isNone
  | _, _ => false

/-- Here a patch turns variables into imports, and the next one looks for a statement of a function
among them: the search finds it, and the walk tries nothing. -/
theorem apply_search_import :
    ∃ r r' file file' pattern,
      compilePatchFile ("@@\n@@\n type T int\n-var (\n-\t...\n-)\n+import (\n+\t...\n+)\n\n" ++
        "@@\n@@\n-return 1\n+return 2\n").toList = .ok [r, r'] ∧
      parseFile .code ("package p\n\ntype T int\n\nvar (\n\tx = func() int \x7b\n" ++
        "\t\treturn 1\n\t\x7d\n)\n").toList = .ok file ∧
      (r.apply file .empty .default).file = file' ∧ file'.kind = .file ∧
        file'.tree.conforms = true ∧
      r'.body.pattern? = some pattern ∧ pattern.hasElement = true ∧
        (r'.matchFile? file').isSome = true ∧
      (r'.apply file' .empty .default).result = .ok 0 ∧
      ∀ base slot n c, ¬ r'.IsAttempt base file' slot n c := by
  have hpasses : passesBoth
      ("@@\n@@\n type T int\n-var (\n-\t...\n-)\n+import (\n+\t...\n+)\n\n" ++
        "@@\n@@\n-return 1\n+return 2\n")
      ("package p\n\ntype T int\n\nvar (\n\tx = func() int \x7b\n" ++
        "\t\treturn 1\n\t\x7d\n)\n") (fun r r' file =>
        r'.missesStretches (r.apply file .empty .default).file) = true := by decide +kernel
  obtain ⟨r, r', file, hrs, hfile, hmisses⟩ := exists_of_passesBoth hpasses
  unfold missesStretches at hmisses
  split at hmisses
  · rename_i level pattern template hbody hzero
    simp only [Bool.and_eq_true, beq_iff_eq, List.all_eq_true, Option.isNone_iff_eq_none] at hmisses
    obtain ⟨⟨⟨⟨hkind, hconforms⟩, helement⟩, hfound⟩, hsites⟩ := hmisses
    refine ⟨r, r', file, _, pattern, hrs, hfile, rfl, hkind, hconforms, by rw [hbody]; rfl,
      helement, hfound, hzero, fun base slot n c hattempt => ?_⟩
    unfold IsAttempt at hattempt
    rw [hbody] at hattempt
    obtain ⟨s, l, c₁, -, hs, hl, -⟩ := hattempt
    rw [hsites _ hs] at hl
    cases hl
  · cases hmisses

end Recipe

end Graft
