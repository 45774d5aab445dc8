import Graft.Proofs.Match.Sections
import Graft.Proofs.Recipe.Metavars
import Graft.Proofs.Recipe.Mirror

/-! # Stretches of a container

A window recipe looks at the rest of a list, but it is about a stretch in the middle.  What stands
before and behind the stretch is skipped and put on record, unless the pattern begins or ends with a
wildcard, and the template puts it back.  So a match cuts the rest of the list in three, where the
middle is never empty (`Pattern.exists_window`), and what is built has the same two ends
(`Template.exists_items`).

The middle would be empty for a pattern of nothing at all; a patch is never read as one.
-/

namespace Graft

/-! ### Runs on record -/

theorem Key.ne_of_isRun {k k' : Key} (hk : k.isRun = false) (hk' : k'.isRun = true) : k ≠ k' := by
  rintro rfl
  rw [hk] at hk'
  cases hk'

namespace Captures

variable {c c' : Captures} {k : Key}

/-- The elements of the run that is on record under a key; none if no run is. -/
def skipped (c : Captures) (k : Key) : List Tree := ((c.run? k).map (·.1)).getD []

theorem skipped_of_run? {ts : List Tree} {s : Span} (h : c.run? k = some (ts, s)) :
    c.skipped k = ts := by
  rw [skipped, h]
  rfl

theorem skipped_of_get? (h : c.get? k = none) : c.skipped k = [] := by
  rw [skipped, run?, h]
  rfl

theorem run?_congr (h : c.get? k = c'.get? k) : c.run? k = c'.run? k := by
  rw [run?, run?, h]

theorem skipped_congr (h : c.get? k = c'.get? k) : c.skipped k = c'.skipped k := by
  rw [skipped, run?_congr h, skipped]

@[simp] theorem skipped_visible (c : Captures) (k : Key) : c.visible.skipped k = c.skipped k :=
  skipped_congr (c.get?_visible k)

end Captures

theorem Recipe.runLength_eq (c : Captures) (k : Key) : runLength c k = (c.skipped k).length := by
  unfold runLength Captures.skipped
  cases c.run? k <;> rfl

namespace Pattern

/-! ### What a match cuts out -/

variable {metas : MetaTable} {ts us : List Tree} {head tail : Bool} {c e : Captures}

/-- The elements of a list pattern bind nothing that is around the list. -/
theorem outside_notMem_keys (metas : MetaTable) {k : Key} (hk : k.isOutside = true)
    (ts : List Tree) :
    k ∉ keysAll (PatternItem.cut (ofItems metas ts)).1 ∧
      k ∉ sectionKeys (PatternItem.cut (ofItems metas ts)).2 := by
  obtain ⟨hfront, hsections⟩ := @isDots_of_ofItems metas ts
  have hdots : ¬ k.isDots = true := by
    cases k with
    | dots p => cases hk
    | _ => nofun
  exact ⟨fun h => hdots (hfront k (mem_runKeysAll_of_mem_keysAll hk _ h)),
    fun h => hdots (hsections k (mem_runKeysIn_of_mem_sectionKeys hk _ h))⟩

/-- What is left behind the last section is on record as the tail, if there is one. -/
theorem Placed.exists_behind {front : List Tree} {sections : List (Key × List Pattern)}
    {parts : List Part} (hkeys : .tail ∉ sectionKeys sections) (hc : c.get? .tail = none)
    (h : Placed front (sections ++ if tail then [(.tail, [])] else []) c parts e) :
    ∃ before, elements parts = elements before ++ e.skipped .tail ∧
      List.Forall₂ (fun s x => x.items.length = s.2.length) sections before := by
  cases tail with
  | true =>
    obtain ⟨before, run, span, rfl, hrun, hlengths⟩ := h.exists_last
    refine ⟨before, ?_, hlengths⟩
    simp [Captures.skipped_of_run? hrun]
  | false =>
    rw [if_neg Bool.false_ne_true, List.append_nil] at h
    have hnone : e.get? .tail = none := by rw [h.get?_eq hkeys, hc]
    exact ⟨parts, by rw [Captures.skipped_of_get? hnone, List.append_nil], h.lengths⟩

/-- How a match of a stretch cuts a list: what is skipped before and behind it is on record, and
between the two every element of the pattern has one of the list. -/
theorem exists_cut (hhead : head = false → (PatternItem.cut (ofItems metas ts)).2 ≠ [])
    (hc : c.get? .head = none) (hc' : c.get? .tail = none)
    (h : (ofWindow metas ts head tail).match? (.list us) c = some e) :
    ∃ front parts, us = e.skipped .head ++ (front ++ elements parts) ++ e.skipped .tail ∧
      front.length = (PatternItem.cut (ofItems metas ts)).1.length ∧
      List.Forall₂ (fun s x => x.items.length = s.2.length)
      (PatternItem.cut (ofItems metas ts)).2 parts := by
  obtain ⟨hfront₁, hsections₁⟩ :=
    outside_notMem_keys metas (show Key.head.isOutside = true from rfl) ts
  obtain ⟨hfront₂, hsections₂⟩ :=
    outside_notMem_keys metas (show Key.tail.isOutside = true from rfl) ts
  unfold ofWindow at h
  dsimp only at h
  generalize PatternItem.cut (ofItems metas ts) = cut at *
  obtain ⟨front, sections⟩ := cut
  have hhead' : .head ∉ sectionKeys (sections ++ if tail then [(.tail, [])] else []) := by
    rw [sectionKeys_append, List.mem_append, not_or]
    refine ⟨hsections₁, ?_⟩
    cases tail <;> simp [sectionKeys, keysAll]
  cases head with
  | true =>
    obtain ⟨first, parts, c₀, rfl, hfirst, hplaced⟩ := (match?_runs_iff_placed (by simp)).mp h
    obtain rfl : first = [] := List.length_eq_zero_iff.mp (length_eq_of_matchAll hfirst)
    cases hfirst
    cases hplaced with
    | @cons _ _ _ _ x parts _ c₁ _ hitems _ hrest =>
      have hskipped : e.skipped .head = x.run :=
        Captures.skipped_of_run? (Captures.run?_of_get? (by
          rw [hrest.get?_eq hhead', Captures.get?_bind, if_pos rfl]))
      have hnone : c₁.get? .tail = none := by rw [matchAll_frame _ hitems hfront₂, hc']
      obtain ⟨before, hbefore, hlengths⟩ := Placed.exists_behind hsections₂
        (by rw [Captures.get?_bind, if_neg (by decide), hnone]) hrest
      refine ⟨x.items, before, ?_, length_eq_of_matchAll hitems, hlengths⟩
      simp [hskipped, hbefore]
  | false =>
    obtain ⟨first, parts, c₀, rfl, hfirst, hplaced⟩ :=
      (match?_runs_iff_placed (List.append_ne_nil_of_left_ne_nil (hhead rfl) _)).mp h
    have hskipped : e.skipped .head = [] :=
      Captures.skipped_of_get? (by rw [hplaced.get?_eq hhead', matchAll_frame _ hfirst hfront₁, hc])
    have hnone : c₀.get? .tail = none := by rw [matchAll_frame _ hfirst hfront₂, hc']
    obtain ⟨before, hbefore, hlengths⟩ := Placed.exists_behind hsections₂ hnone hplaced
    refine ⟨first, before, ?_, length_eq_of_matchAll hfirst, hlengths⟩
    simp [hskipped, hbefore]

/-- Nothing is on record for a side on which the pattern has a wildcard of its own. -/
theorem get?_of_ofWindow (hc : c.get? .head = none) (hc' : c.get? .tail = none)
    (h : (ofWindow metas ts head tail).match? (.list us) c = some e) :
    (head = false → e.get? .head = none) ∧ (tail = false → e.get? .tail = none) := by
  have hfirst := outside_notMem_keys metas (show Key.head.isOutside = true from rfl) ts
  have hlast := outside_notMem_keys metas (show Key.tail.isOutside = true from rfl) ts
  rw [← not_or, ← List.mem_append, Tree.keys_cut] at hfirst hlast
  constructor
  · rintro rfl
    rw [matchWith_frame _ h, hc]
    rw [keys_ofWindow]
    cases tail <;> simp [hfirst]
  · rintro rfl
    rw [matchWith_frame _ h, hc']
    rw [keys_ofWindow]
    cases head <;> simp [hlast]

/-- Nothing is skipped on a side on which the pattern has a wildcard of its own. -/
theorem skipped_eq_nil (hc : c.get? .head = none) (hc' : c.get? .tail = none)
    (h : (ofWindow metas ts head tail).match? (.list us) c = some e) :
    (head = false → e.skipped .head = []) ∧ (tail = false → e.skipped .tail = []) := by
  obtain ⟨hfirst, hlast⟩ := get?_of_ofWindow hc hc' h
  exact ⟨fun hfalse => Captures.skipped_of_get? (hfirst hfalse),
    fun hfalse => Captures.skipped_of_get? (hlast hfalse)⟩

/-- A stretch without a run of its own before it begins with a wildcard. -/
theorem sections_ne_nil (hts : ts ≠ []) (hhead : head = !(ts.head?.bind Tree.wildcard?).isSome) :
    head = false → (PatternItem.cut (ofItems metas ts)).2 ≠ [] := by
  intro hfalse
  cases ts with
  | nil => exact absurd rfl hts
  | cons t ts =>
    obtain ⟨p, hp⟩ : ∃ p, t.wildcard? = some p := by
      rw [← Option.isSome_iff_exists]
      simpa [hfalse] using hhead
    rw [ofItems, hp]
    exact List.cons_ne_nil _ _

theorem cut_ne_nil (metas : MetaTable) {t : Tree} (ht : t ∈ ts) (hwildcard : t.wildcard? = none) :
    (PatternItem.cut (ofItems metas ts)).1 ≠ [] ∨
      ∃ s ∈ (PatternItem.cut (ofItems metas ts)).2, s.2 ≠ [] := by
  induction ts with
  | nil => cases ht
  | cons t' ts ih =>
    rw [ofItems]
    cases hwildcard' : t'.wildcard? with
    | none => exact .inl (List.cons_ne_nil _ _)
    | some p =>
      have hmem : t ∈ ts := by
        rcases List.mem_cons.mp ht with rfl | hmem
        · rw [hwildcard] at hwildcard'
          cases hwildcard'
        · exact hmem
      rcases ih hmem with hfront | ⟨s, hs, hne⟩
      · exact .inr ⟨_, List.mem_cons_self, hfront⟩
      · exact .inr ⟨s, List.mem_cons_of_mem _ hs, hne⟩

theorem elements_ne_nil {sections : List (Key × List Pattern)} {parts : List Part}
    (h : List.Forall₂ (fun s x => x.items.length = s.2.length) sections parts)
    {s : Key × List Pattern} (hs : s ∈ sections) (hne : s.2 ≠ []) : elements parts ≠ [] := by
  induction h with
  | nil => cases hs
  | @cons s' x _ _ hlength _ ih =>
    rw [elements_cons]
    rcases List.mem_cons.mp hs with rfl | hs
    · have hitems : x.items ≠ [] := by
        rw [← List.length_pos_iff] at hne ⊢
        omega
      simp [hitems]
    · simp [ih hs]

/-- **A match of a stretch cuts something out**: the list is what is skipped before it, the stretch
itself and what is skipped behind it, and the stretch is not empty. -/
theorem exists_window (hts : ts ≠ []) (hhead : head = !(ts.head?.bind Tree.wildcard?).isSome)
    (htail : tail = !(ts.getLast?.bind Tree.wildcard?).isSome) (hc : c.get? .head = none)
    (hc' : c.get? .tail = none) (hus : us ≠ [])
    (h : (ofWindow metas ts head tail).match? (.list us) c = some e) :
    ∃ window, window ≠ [] ∧ us = e.skipped .head ++ window ++ e.skipped .tail := by
  by_cases hall : ∀ t ∈ ts, t.wildcard?.isSome = true
  · -- wildcards only: nothing is skipped, and the stretch is all there is
    have hfirst : head = false := by
      rw [hhead, List.head?_eq_some_head hts, Option.bind_some, hall _ (List.head_mem hts)]
      rfl
    have hlast : tail = false := by
      rw [htail, List.getLast?_eq_some_getLast hts, Option.bind_some, hall _ (List.getLast_mem hts)]
      rfl
    obtain ⟨hbefore, hbehind⟩ := skipped_eq_nil hc hc' h
    rw [hbefore hfirst, hbehind hlast]
    exact ⟨us, hus, by rw [List.nil_append, List.append_nil]⟩
  · push Not at hall
    obtain ⟨t, ht, hwildcard⟩ := hall
    obtain ⟨front, parts, hcut, hfront, hlengths⟩ := exists_cut (sections_ne_nil hts hhead) hc hc' h
    refine ⟨front ++ elements parts, ?_, hcut⟩
    rcases cut_ne_nil metas ht (by simpa using hwildcard) with hne | ⟨s, hs, hne⟩
    · refine List.append_ne_nil_of_left_ne_nil ?_ _
      rw [← List.length_pos_iff] at hne ⊢
      omega
    · exact List.append_ne_nil_of_right_ne_nil _ (elements_ne_nil hlengths hs hne)

end Pattern

/-! ### What is built for it -/

namespace Template

open Builder

variable {c : Captures} {d d' : Draft}

theorem buildItems_append (c : Captures) (xs ys : List TemplateItem) :
    buildItems c (xs ++ ys) = do
      let us ← buildItems c xs
      let vs ← buildItems c ys
      return us ++ vs := by
  induction xs with
  | nil => simp [buildItems]
  | cons x xs ih =>
    cases x <;> simp only [List.cons_append, buildItems, ih, bind_assoc, pure_bind,
      List.append_assoc]

/-- A run that is put back is the one on record. -/
theorem eq_skipped_of_splice {k : Key} {isThere : Bool} (hnone : isThere = false → c.skipped k = [])
    {vs : List Tree}
    (h : (buildItems c (if isThere then [.splice (some k) .none] else [])).run d = .ok (vs, d')) :
    vs = c.skipped k := by
  cases isThere with
  | false =>
    cases h
    exact (hnone rfl).symm
  | true =>
    rw [if_pos rfl] at h
    obtain ⟨run, span, us, d₁, hrun, -, hnil, rfl⟩ := exists_of_run_splice h
    cases hnil
    rw [List.append_nil]
    exact (Captures.skipped_of_run? hrun).symm

/-- **What is built for a stretch has the same ends**, the runs before it and behind it. -/
theorem exists_items {metas : MetaTable} {a : Pairing} {ts : List Tree} {head tail : Bool}
    (hhead : head = false → c.skipped .head = []) (htail : tail = false → c.skipped .tail = [])
    {v : Tree} (h : ((ofWindow metas a ts head tail).build c).run d = .ok (v, d')) :
    ∃ items, v = .list (c.skipped .head ++ items ++ c.skipped .tail) := by
  rw [ofWindow, build] at h
  obtain ⟨vs, d₁, h₁, h⟩ := exists_of_run_bind h
  cases h
  rw [buildItems_append, buildItems_append] at h₁
  obtain ⟨inner, d₂, h₂, h₁⟩ := exists_of_run_bind h₁
  obtain ⟨front, d₃, hfront, h₂⟩ := exists_of_run_bind h₂
  obtain ⟨items, d₄, -, h₂⟩ := exists_of_run_bind h₂
  cases h₂
  obtain ⟨behind, d₅, hbehind, h₁⟩ := exists_of_run_bind h₁
  cases h₁
  rw [eq_skipped_of_splice hhead hfront, eq_skipped_of_splice htail hbehind]
  exact ⟨items, rfl⟩

end Template

/-! ### Compiled recipes -/

/-- The statements or declarations of a body; an expression is one statement. -/
def Body.elements : Body → List Tree
  | .empty => []
  | .expr x => [Patch.asStmt x]
  | .stmts ts | .decls ts => ts

/-- A patch of statements or declarations has some to look for, and runs of its own before and
behind them unless they begin or end with a wildcard. -/
theorem Patch.exists_items_of_recipeBody {p : Patch} (hfilled : p.minus.fragment.body.IsFilled)
    {level : Level} {pattern : Pattern} {template : Template}
    (h : p.recipeBody.value = .window level pattern template) :
    ∃ minus plus head tail, minus = p.minus.fragment.body.elements ∧ minus ≠ [] ∧
      head = !(minus.head?.bind Tree.wildcard?).isSome ∧
      tail = !(minus.getLast?.bind Tree.wildcard?).isSome ∧
      pattern = .ofWindow p.metaTable minus head tail ∧
      template = .ofWindow p.metaTable (.ofPatch p) plus head tail := by
  have hwindow {level' : Level} {minus plus : List Tree}
      (hminus : minus = p.minus.fragment.body.elements)
      (hne : minus ≠ []) (h : (p.windowBody level' minus plus).value = .window level
        pattern template) :
      ∃ minus plus head tail, minus = p.minus.fragment.body.elements ∧ minus ≠ [] ∧
        head = !(minus.head?.bind Tree.wildcard?).isSome ∧
        tail = !(minus.getLast?.bind Tree.wildcard?).isSome ∧
        pattern = .ofWindow p.metaTable minus head tail ∧
        template = .ofWindow p.metaTable (.ofPatch p) plus head tail := by
    cases h
    exact ⟨minus, plus, _, _, hminus, hne, rfl, rfl, rfl, rfl⟩
  unfold recipeBody at h
  dsimp only at h
  split at h
  case h_1 | h_2 | h_10 | h_11 => cases h
  case h_3 hminus _ | h_4 hminus _ => exact hwindow (by rw [hminus]; rfl) (List.cons_ne_nil _ _) h
  case h_5 hminus _ | h_6 hminus _ | h_7 hminus _ | h_8 hminus _ | h_9 hminus _ =>
    rw [hminus] at hfilled
    exact hwindow (by rw [hminus]; rfl) hfilled h

theorem Patch.isFilled_minus {text : List Char} {p : Patch}
    (hp : p ∈ (PatchFile.read text).patches) :
    p.minus.fragment.body.IsFilled := by
  obtain ⟨body, -, hread⟩ := PatchFile.exists_body_of_mem hp
  obtain ⟨fragment, hfragment, hminus⟩ := Side.exists_of_read hread.minus
  rw [hminus]
  exact filled_of_parseFragment hfragment

namespace Recipe

variable {r : Recipe} {base c : Captures} {level : Level} {pattern : Pattern} {template : Template}

/-- What every match in a file starts from has no runs. -/
theorem get?_of_matchHeader? {file : Node} (h : r.matchHeader? file = some base) {k : Key}
    (hk : k.isRun = true) : base.get? k = none := by
  have hbind {c : Captures} {k' : Key} {b : Binding} (hk' : k'.isRun = false)
      (hc : c.get? k = none) :
      (c.bind k' b).get? k = none := by
    rw [Captures.get?_bind, if_neg (Key.ne_of_isRun hk' hk), hc]
  exact matchHeader?_keeps (P := fun c => c.get? k = none) rfl (hbind rfl) (hbind rfl) h

/-- What a compiled recipe looks for in containers, and what it builds there, comes from a patch. -/
theorem exists_ofWindow_of_mem {text : List Char} {rs : List Recipe}
    (hrs : compilePatchFile text = .ok rs) (hr : r ∈ rs)
    (hbody : r.body = .window level pattern template) :
    ∃ p ∈ (PatchFile.read text).patches, ∃ minus plus head tail, minus =
      p.minus.fragment.body.elements ∧
      minus ≠ [] ∧ head = !(minus.head?.bind Tree.wildcard?).isSome ∧
      tail = !(minus.getLast?.bind Tree.wildcard?).isSome ∧
      pattern = .ofWindow p.metaTable minus head tail ∧
      template = .ofWindow p.metaTable (.ofPatch p) plus head tail := by
  obtain ⟨p, hp, hcompile⟩ := exists_patch_of_mem hrs hr
  have hpatch := (body_of_compile hcompile).symm.trans hbody
  exact ⟨p, hp, Patch.exists_items_of_recipeBody (Patch.isFilled_minus hp) hpatch⟩

/-- What a match of a stretch has on record as runs is what its pattern filed. -/
theorem exists_found_of_matchWindow? {n : Node} {l : Label} {offset : Nat}
    (h : matchWindow? n l offset pattern base = some c) :
    ∃ c₁, pattern.match? (.list ((n.list l).drop offset)) base = some c₁ ∧
      ∀ {k : Key}, k.isRun = true → c.get? k = c₁.get? k := by
  obtain ⟨c₁, s, hfound, rfl⟩ := exists_of_matchWindow? h
  refine ⟨c₁, hfound, fun {k} hk => ?_⟩
  rw [Captures.get?_bind, if_neg (Key.ne_of_isRun rfl hk), Captures.get?_bind,
    if_neg (Key.ne_of_isRun rfl hk)]

/-- Whether the matches of a pattern, from the given captures on, cut something out of the list of a
container, and the template puts what is skipped before and behind it back where it was. -/
def CutsOut (pattern : Pattern) (template : Template) (base : Captures) : Prop :=
  ∀ {n : Node} {l : Label} {offset : Nat} {c : Captures}, offset < (n.list l).length →
    matchWindow? n l offset pattern base = some c →
      ∃ window, window ≠ [] ∧ (n.list l).drop offset = c.skipped .head ++ window ++
      c.skipped .tail ∧
        ∀ {d d' v}, (template.build c.visible).run d = .ok (v, d') →
          ∃ items, v = .list (c.skipped .head ++ items ++ c.skipped .tail)

/-- **Compiled recipes cut something out.** -/
theorem cutsOut_of_mem {text : List Char} {rs : List Recipe} (hrs : compilePatchFile text = .ok rs)
    (hr : r ∈ rs) (hbody : r.body = .window level pattern template) {file : Node}
    (hbase : r.matchHeader? file = some base) :
    CutsOut pattern template base := by
  intro n l offset c hlt hmatch
  obtain ⟨p, -, minus, plus, head, tail, -, hne, hhead, htail, rfl, rfl⟩ :=
    exists_ofWindow_of_mem hrs hr hbody
  obtain ⟨c₁, hfound, hsame⟩ := exists_found_of_matchWindow? hmatch
  have hfirst : c.skipped .head = c₁.skipped .head := Captures.skipped_congr (hsame rfl)
  have hlast : c.skipped .tail = c₁.skipped .tail := Captures.skipped_congr (hsame rfl)
  have hnone₁ : base.get? .head = none := get?_of_matchHeader? hbase rfl
  have hnone₂ : base.get? .tail = none := get?_of_matchHeader? hbase rfl
  have hus : (n.list l).drop offset ≠ [] := by
    rw [ne_eq, List.drop_eq_nil_iff]
    omega
  obtain ⟨window, hwindow, hcut⟩ := Pattern.exists_window hne hhead htail hnone₁ hnone₂ hus hfound
  obtain ⟨hbefore, hbehind⟩ := Pattern.skipped_eq_nil hnone₁ hnone₂ hfound
  rw [← hfirst] at hcut hbefore
  rw [← hlast] at hcut hbehind
  rw [← c.skipped_visible] at hbefore hbehind
  refine ⟨window, hwindow, hcut, fun hbuilt => ?_⟩
  rw [← c.skipped_visible, ← c.skipped_visible]
  exact Template.exists_items hbefore hbehind hbuilt

/-- What replaces a container is the container with what was built at the end of its list. -/
theorem exists_of_build_container (hbody : r.body = .window level pattern template)
    {m : Node} {l : Label} {front : List Tree}
    (hm : (c.captured? .container).bind (·.1.node?) = some m) (hl : level.field? m.kind = some l)
    (hfront : m.get l = .list front) {d d' : Draft} {value : Tree}
    (h : (r.build c).run d = .ok (value, d')) :
    ∃ built, (template.build c).run d = .ok (built, d') ∧
      ∀ ts, built = .list ts → value = (m.set l (.list (front ++ ts))).tree := by
  obtain ⟨n, l', built, m', hn, hl', hbuilt, rfl, rfl, -⟩ := exists_of_build hbody h
  rw [hm] at hn
  cases hn
  rw [hl] at hl'
  cases hl'
  refine ⟨built, hbuilt, ?_⟩
  rintro ts rfl
  rw [hfront]

end Recipe

end Graft
