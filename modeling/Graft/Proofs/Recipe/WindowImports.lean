import Graft.Proofs.Recipe.ImportNames
import Graft.Proofs.Recipe.Rounds
import Graft.Proofs.Recipe.Wildcards

/-! # Recipes of declarations and imports

The rounds of a recipe of declarations may take import declarations away and put others in.  Whether
they can is seen from the recipe: none of its declarations is one of imports, and its template puts
in, in order, what the wildcards of its pattern skip (`Recipe.sparesImports`).  Then what a match
cuts out of a file and what is built for it import the same, so the imports stay as they are while
the recipe walks (`Recipe.importSpecs_walkFile_of_spares`).
-/

namespace Graft

/-! ### What a recipe says about imports -/

/-- Whether a node of the kind with the given keyword, if it is known, is no import declaration. -/
def Kind.declaresOthers (k : Kind) (keyword : Option Token) : Bool :=
  k != .genDecl || keyword.any (· != .kwImport)

theorem Tree.importSpecs_of_declaresOthers {k : Kind} {keyword : Option Token} {ts : List Tree}
    (h : k.declaresOthers keyword = true) (htok : ∀ t ∈ keyword, ts[2]? = some (.tok t)) :
    (Tree.node k ts).importSpecs = [] := by
  refine Tree.importSpecs_node k ts ?_
  rcases Bool.or_eq_true_iff.mp h with hkind | hkeyword
  · simp only [Node.isImportDecl, beq_eq_false_iff_ne.mpr (bne_iff_ne.mp hkind), Bool.false_and]
  · obtain ⟨t, rfl, ht⟩ := (Option.any_eq_true ..).mp hkeyword
    rw [Node.isImportDecl]
    by_cases hkind : k = .genDecl
    · subst hkind
      have htok : Node.tok? ⟨.genDecl, ts⟩ .tok = some t := by
        have hget : Node.get ⟨.genDecl, ts⟩ .tok = .tok t := congrArg (·.getD .nil) (htok t rfl)
        rw [Node.tok?, hget]
      simpa [htok] using ht
    · simp only [beq_eq_false_iff_ne.mpr hkind, Bool.false_and]

namespace Pattern

def tok? : Pattern → Option Token
  | tok t => some t
  | _ => none

/-- Whether what a pattern matches is a node that declares no imports. -/
def declaresOthers : Pattern → Bool
  | node k fs => k.declaresOthers (fs[2]?.bind tok?)
  | _ => false

variable {c e : Captures}

theorem exists_of_matchAll {ps : List Pattern} {ts : List Tree} {i : Nat} {p : Pattern}
    (h : matchAll replays ps ts c = some e) (hp : ps[i]? = some p) :
    ∃ t c₁ c₂, ts[i]? = some t ∧ p.match? t c₁ = some c₂ := by
  induction ps generalizing ts c i with
  | nil => cases hp
  | cons q ps ih =>
    cases ts with
    | nil => cases h
    | cons t ts =>
      obtain ⟨c₁, hq, hps⟩ := Option.bind_eq_some_iff.mp h
      cases i with
      | zero =>
        cases hp
        exact ⟨t, c, c₁, rfl, hq⟩
      | succ i =>
        rw [List.getElem?_cons_succ] at hp ⊢
        exact ih hps hp

/-- What matches such a pattern has no imports. -/
theorem importSpecs_of_match? {p : Pattern} (hp : p.declaresOthers = true) {t : Tree}
    (h : p.match? t c = some e) : t.importSpecs = [] := by
  cases p with
  | node k ps =>
    unfold match? at h
    cases t with
    | node l ts =>
      rw [matchWith] at h
      obtain ⟨rfl, hps⟩ := Option.ite_none_right_eq_some.mp h
      refine Tree.importSpecs_of_declaresOthers hp fun t ht => ?_
      obtain ⟨q, hq, ht⟩ := Option.bind_eq_some_iff.mp ht
      obtain ⟨u, c₁, c₂, hu, hmatch⟩ := exists_of_matchAll hps hq
      cases q with
      | tok s =>
        obtain rfl := Option.some.inj ht
        unfold match? at hmatch
        cases u with
        | tok =>
          rw [matchWith] at hmatch
          obtain ⟨rfl, -⟩ := Option.ite_none_right_eq_some.mp hmatch
          exact hu
        | _ => cases hmatch
      | _ => cases ht
    | _ => cases h
  | _ => cases hp

theorem importSpecs_of_matchAll {ps : List Pattern} (hps : ps.all declaresOthers = true)
    {ts : List Tree} (h : matchAll replays ps ts c = some e) :
    ts.flatMap Tree.importSpecs = [] := by
  induction ps generalizing ts c with
  | nil =>
    cases ts with
    | nil => rfl
    | cons => cases h
  | cons p ps ih =>
    cases ts with
    | nil => cases h
    | cons t ts =>
      obtain ⟨hp, hps⟩ := Bool.and_eq_true_iff.mp hps
      obtain ⟨c₁, ht, hts⟩ := Option.bind_eq_some_iff.mp h
      rw [List.flatMap_cons, importSpecs_of_match? hp ht, ih hps hts, List.nil_append]

variable {front : List Tree} {sections : List (Key × List Pattern)} {parts : List Part}

/-- The imports of what sections are placed in are those of the runs. -/
theorem Placed.importSpecs (h : Placed front sections c parts e)
    (hsections : sections.all (·.2.all declaresOthers) = true) :
    (elements parts).flatMap Tree.importSpecs = (parts.flatMap (·.run)).flatMap
      Tree.importSpecs := by
  induction h with
  | nil => rfl
  | cons hitems _ _ ih =>
    obtain ⟨hps, hsections⟩ := Bool.and_eq_true_iff.mp hsections
    rw [elements_cons, List.flatMap_append, List.flatMap_append, importSpecs_of_matchAll hps hitems,
      List.nil_append, ih hsections, List.flatMap_cons, List.flatMap_append]

/-- The runs are on record, one behind the other. -/
theorem Placed.flatMap_run (h : Placed front sections c parts e)
    (hkeys : (sections.map (·.1)).Nodup)
    (hfree : ∀ key ∈ sections.map (·.1), ∀ s ∈ sections, key ∉ keysAll s.2) :
    parts.flatMap (·.run) = (sections.map (·.1)).flatMap e.skipped := by
  have hruns : sections.map (fun s => e.skipped s.1) = parts.map (·.run) := by
    refine List.ext_getElem? fun i => ?_
    have hlength := h.lengths.length_eq
    rw [List.getElem?_map, List.getElem?_map]
    by_cases hi : i < sections.length
    · have hs := List.getElem?_eq_getElem hi
      have hx := List.getElem?_eq_getElem (hlength ▸ hi)
      rw [hs, hx, Option.map_some, Option.map_some, Captures.skipped_of_run?
        (h.run?_eq hkeys hfree hs hx)]
    · rw [List.getElem?_eq_none (Nat.le_of_not_lt hi),
        List.getElem?_eq_none (hlength ▸ Nat.le_of_not_lt hi)]
      rfl
  rw [List.flatMap_def, ← hruns, List.flatMap_map, ← List.flatMap_def]

/-- **What matches the list pattern of a stretch imports what its runs import.** -/
theorem importSpecs_of_runs {front : List Pattern} {head tail : Bool}
    (hwindow : IsWindow front sections head tail) (hfront : front.all declaresOthers = true)
    (hsections : sections.all (·.2.all declaresOthers) = true) {ts : List Tree}
    (h : (runs front sections).match? (.list ts) c = some e) :
    ts.flatMap Tree.importSpecs =
      ((sections.map (·.1)).flatMap e.skipped).flatMap Tree.importSpecs := by
  obtain ⟨first, parts, c₀, rfl, hfirst, hplaced⟩ := (match?_runs_iff_placed hwindow.ne_nil).mp h
  rw [List.flatMap_append, importSpecs_of_matchAll hfront hfirst, List.nil_append,
    hplaced.importSpecs hsections, hplaced.flatMap_run hwindow.nodup hwindow.free]

end Pattern

namespace Template

open Builder

def tok? : Template → Option Token
  | tok t => some t
  | _ => none

/-- Whether what a template builds is a node that declares no imports. -/
def declaresOthers : Template → Bool
  | node k fs => k.declaresOthers (fs[2]?.bind tok?)
  | _ => false

variable {c : Captures} {d d' : Draft}

theorem exists_of_buildAll {ts : List Template} {vs : List Tree} {i : Nat} {t : Template}
    (h : (buildAll c ts).run d = .ok (vs, d')) (ht : ts[i]? = some t) :
    ∃ v d₁ d₂, vs[i]? = some v ∧ (t.build c).run d₁ = .ok (v, d₂) := by
  induction ts generalizing d vs i with
  | nil => cases ht
  | cons u ts ih =>
    rw [buildAll] at h
    obtain ⟨v, d₁, hu, h⟩ := exists_of_run_bind h
    obtain ⟨us, d₂, hts, h⟩ := exists_of_run_bind h
    cases h
    cases i with
    | zero =>
      cases ht
      exact ⟨v, d, d₁, rfl, hu⟩
    | succ i =>
      rw [List.getElem?_cons_succ] at ht ⊢
      exact ih hts ht

/-- What such a template builds has no imports. -/
theorem importSpecs_of_build {t : Template} (ht : t.declaresOthers = true) {v : Tree}
    (h : (t.build c).run d = .ok (v, d')) : v.importSpecs = [] := by
  cases t with
  | node k fs =>
    rw [build] at h
    obtain ⟨vs, d₁, hvs, h⟩ := exists_of_run_bind h
    split at h
    · cases h
    · cases h
      refine Tree.importSpecs_of_declaresOthers ht fun t ht => ?_
      obtain ⟨u, hu, ht⟩ := Option.bind_eq_some_iff.mp ht
      obtain ⟨v, d₁, d₂, hv, hbuilt⟩ := exists_of_buildAll hvs hu
      cases u with
      | tok s =>
        obtain rfl := Option.some.inj ht
        cases hbuilt
        exact hv
      | _ => cases ht
  | _ => cases ht

end Template

namespace TemplateItem

/-- The key of the run that is put in. -/
def key? : TemplateItem → Option Key
  | one _ => none
  | splice key _ => key

/-- Whether an item puts in a run or a node that declares no imports. -/
def declaresOthers : TemplateItem → Bool
  | one t => t.declaresOthers
  | splice _ _ => true

end TemplateItem

/-- **What is built for a stretch imports what the runs import that are put in.** -/
theorem Template.importSpecs_of_buildItems {c : Captures} {d d' : Draft} {items : List TemplateItem}
    (hitems : items.all (·.declaresOthers) = true) {vs : List Tree}
    (h : (buildItems c items).run d = .ok (vs, d')) :
    vs.flatMap Tree.importSpecs =
      ((items.filterMap (·.key?)).flatMap c.skipped).flatMap Tree.importSpecs := by
  induction items generalizing d vs with
  | nil =>
    cases h
    rfl
  | cons item items ih =>
    rw [List.all_cons, Bool.and_eq_true] at hitems
    obtain ⟨hitem, hitems⟩ := hitems
    cases item with
    | one t =>
      rw [buildItems] at h
      obtain ⟨v, d₁, ht, h⟩ := Builder.exists_of_run_bind h
      obtain ⟨us, d₂, hus, h⟩ := Builder.exists_of_run_bind h
      cases h
      rw [List.flatMap_cons, importSpecs_of_build hitem ht, List.nil_append, ih hitems hus]
      rfl
    | splice key dots =>
      obtain ⟨run, span, us, d₁, hrun, -, hus, rfl⟩ := exists_of_run_splice h
      obtain ⟨k, rfl, hrun⟩ := Option.bind_eq_some_iff.mp hrun
      have hkey : (TemplateItem.splice (some k) dots :: items).filterMap (·.key?) =
          k :: items.filterMap (·.key?) := rfl
      rw [List.flatMap_append, ih hitems hus, hkey, List.flatMap_cons,
        Captures.skipped_of_run? hrun, List.flatMap_append]

namespace Recipe

/-- Whether a recipe of declarations has none of imports and puts in again, in order, what the
wildcards of its pattern skip.  The other recipes look for no declarations. -/
def sparesImports (r : Recipe) : Bool :=
  match r.body with
  | .window .decls (.runs front sections) (.list items) =>
    front.all (·.declaresOthers) && sections.all (·.2.all (·.declaresOthers)) &&
      items.all (·.declaresOthers) && decide (items.filterMap (·.key?) = sections.map (·.1))
  | .window .decls _ _ => false
  | _ => true

/-- Here a function is taken away; the declarations in front of it that the wildcard skips stay. -/
example : passes "@@\n@@\n func f() \x7b\x7d\n ...\n-func g() \x7b\x7d\n" "package p\n"
    (fun r _ => r.level? == some .decls && r.sparesImports) = true := by
  decide +kernel

/-! ### The rounds over the declarations of a file -/

section Window

open Pattern

variable {r : Recipe} {base c : Captures} {front : List Pattern}
  {sections : List (Key × List Pattern)}
  {items : List TemplateItem} {head tail : Bool}
  (hbody : r.body = .window .decls (.runs front sections) (.list items))
  (hwindow : IsWindow front sections head tail) (hspares : r.sparesImports = true)
include hbody hwindow hspares

/-- **What is built for a match imports what was there before.** -/
theorem importSpecs_of_build {n : Node} (hkind : n.kind = .file) (hne : n.list .decls ≠ [])
    {offset : Nat} (hmatch : matchWindow? n .decls offset (.runs front sections) base = some c)
    {d d' : Draft} {value : Tree} (h : (r.build c.visible).run d = .ok (value, d')) :
    ∃ m : Node, value = m.tree ∧ m.kind = .file ∧ m.importSpecs = n.importSpecs := by
  rw [sparesImports, hbody] at hspares
  simp only [Bool.and_eq_true, decide_eq_true_eq] at hspares
  obtain ⟨⟨⟨hfront, hsections⟩, hitems⟩, hkeys⟩ := hspares
  have hlevel : Level.decls.field? (n.set .decls (.list ((n.list .decls).take offset))).kind =
      some .decls := by
    rw [Node.kind_set, hkind]
    rfl
  obtain ⟨built, hbuilt, hvalue⟩ :=
    exists_of_build_container hbody (container_of_matchWindow? hmatch) hlevel
    (Node.get_set_of_ne_nil hne _) h
  rw [Template.build] at hbuilt
  obtain ⟨vs, d₁, hvs, hbuilt⟩ := Builder.exists_of_run_bind hbuilt
  cases hbuilt
  obtain ⟨c₁, hfound, hsame⟩ := exists_found_of_matchWindow? hmatch
  -- the runs that are put in again are those that the match has found
  have hruns : (sections.map (·.1)).flatMap c.visible.skipped = (sections.map (·.1)).flatMap
      c₁.skipped := by
    refine List.flatMap_congr fun k hk => ?_
    obtain ⟨s, hs, rfl⟩ := List.mem_map.mp hk
    rw [Captures.skipped_visible, Captures.skipped_congr (hsame (hwindow.isRun s hs))]
  have himports : vs.flatMap Tree.importSpecs = ((n.list .decls).drop offset).flatMap
      Tree.importSpecs := by
    rw [Template.importSpecs_of_buildItems hitems hvs, hkeys, hruns,
      importSpecs_of_runs hwindow hfront hsections hfound]
  refine ⟨n.set .decls (.list ((n.list .decls).take offset ++ vs)),
    ?_, by rw [Node.kind_set, hkind], ?_⟩
  · rw [hvalue vs rfl, Node.set_set]
  · rw [Node.importSpecs, Node.list, Node.get_set_of_ne_nil hne, Tree.items,
      List.flatMap_append, himports, ← List.flatMap_append, List.take_append_drop, Node.importSpecs]

theorem importSpecs_rewindow {n : Node} (hkind : n.kind = .file) (rounds offset : Nat)
    (pass : Pass) :
    (r.rewindow .decls (.runs front sections) base rounds offset n pass).1.importSpecs =
      n.importSpecs := by
  induction rounds generalizing offset n pass with
  | zero => rfl
  | succ rounds ih =>
    rw [rewindow]
    dsimp only
    split
    · rfl
    · rename_i hsize
      have hne : n.list .decls ≠ [] := List.ne_nil_of_length_pos (by omega)
      split
      · rfl
      · rename_i c₁ hmatch
        split
        · rename_i k fs log hnew
          obtain ⟨d, d', hbuilt, -⟩ := build_of_replaceInto hnew
          obtain ⟨m, hm, hkind', himports⟩ :=
            importSpecs_of_build hbody hwindow hspares hkind hne hmatch hbuilt
          obtain rfl : (⟨k, fs⟩ : Node) = m := by
            cases hm
            rfl
          split
          · exact himports
          · exact (ih hkind' _ _).trans himports
        · rfl
        · exact ih hkind _ _
        · split
          · rfl
          · exact ih hkind _ _

theorem importSpecs_visitContainer {n : Node} (hkind : n.kind = .file) (slot : Slot) (pass : Pass) :
    ∃ n' : Node, (r.visitContainer .decls (.runs front sections) base slot n pass).1 = n'.tree ∧
      n'.importSpecs = n.importSpecs := by
  have hfield : Level.decls.field? n.kind = some .decls := by rw [hkind]; rfl
  unfold visitContainer
  rw [show n.tree.node? = some n from rfl]
  dsimp only
  rw [hfield]
  split
  · exact ⟨n, rfl, rfl⟩
  · exact ⟨_, rfl, importSpecs_rewindow hbody hwindow hspares hkind _ _ _⟩

theorem importSpecs_walkFile_of_window {file : Node} (h : file.IsFile) (log : EditLog) :
    (r.walkFile base file log).1.importSpecs = file.importSpecs := by
  have hdecl (k : Kind) (hk : k.isA .decl = true) : Level.decls.field? k = none := by
    revert hk
    cases k <;> decide
  -- the walk comes to the declarations first, and leaves each of them as it is
  have hvisit (slot : Slot) (n : Node) (pass : Pass) (hn : n.kind.isA .decl = true) :
      (r.visitContainer .decls (.runs front sections) base slot n pass).1 = n.tree := by
    rw [visitContainer_of_field? (hdecl _ hn)]
  have himports := importSpecs_sweepFields hvisit h ⟨log, 0, none, none⟩
  obtain ⟨doc, package, name, ds, comments, rfl⟩ := h.exists_fields
  unfold walkFile
  rw [hbody]
  dsimp only
  rw [Node.Framed.sweep ⟨name, .list ds, rfl⟩]
  generalize sweepFields _ _ _ _ = swept at himports ⊢
  obtain ⟨file', hfile', hvisited⟩ := importSpecs_visitContainer hbody hwindow hspares
    (n := ⟨.file, swept.1⟩) rfl (.node .file) swept.2
  rw [hfile']
  exact hvisited.trans himports

end Window

/-- **While a recipe that spares imports walks over a file, they stay as they are.** -/
theorem importSpecs_walkFile_of_spares {r : Recipe} {text : List Char} {rs : List Recipe}
    (hrs : compilePatchFile text = .ok rs) (hr : r ∈ rs)
    (hspares : r.sparesImports = true) {file : Node} (h : file.IsFile) (base : Captures)
    (log : EditLog) :
    (r.walkFile base file log).1.importSpecs = file.importSpecs := by
  by_cases hlevel : r.level? = some .decls
  · obtain ⟨pattern, template, hbody⟩ : ∃ pattern template, r.body = .window .decls pattern
        template := by
      unfold level? at hlevel
      split at hlevel
      · cases hlevel
        exact ⟨_, _, ‹_›⟩
      · cases hlevel
    obtain ⟨patch, hpatch, minus, plus, head, tail, hminus, hne, hhead, -, rfl, rfl⟩ :=
      exists_ofWindow_of_mem hrs hr hbody
    have hts : Tree.WildcardsApart minus := by
      rw [hminus]
      exact Patch.wildcardsApart hpatch
    obtain ⟨front, sections, heq, hwindow⟩ :=
      Pattern.exists_runs_ofWindow patch.metaTable tail hts hne hhead
    rw [heq, Template.ofWindow] at hbody
    exact importSpecs_walkFile_of_window hbody hwindow hspares h log
  · obtain ⟨p, hp, hcompile⟩ := exists_patch_of_mem hrs hr
    exact importSpecs_walkFile hp hcompile hlevel h

end Recipe

end Graft
