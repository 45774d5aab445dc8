import Graft.Proofs.Change.SpanSet
import Graft.Proofs.Grammar.Extent
import Graft.Proofs.Match.Layout
import Graft.Proofs.Match.Sections

/-! # The regions of runs

If the elements of a list stand apart (`Tree.AreApart`), the range that is recorded for a run
reaches from the element before the run to the one behind it.  So it covers the elements of the run
and meets no other (`Tree.AreApart.runSpan_fits`), whichever of its neighbours are there.  This
holds for every run that a match of the list cuts out (`Pattern.Placed.runs_fit`).
-/

namespace Graft

namespace Tree

/-- Whether some values stand apart: each takes up a range, which ends before the next one
begins. -/
structure AreApart (ts : List Tree) : Prop where
  placed : ∀ t ∈ ts, t.start.isValid = true ∧ t.start < t.stop
  ordered : ts.Pairwise fun t u => t.stop ≤ u.start

instance (ts : List Tree) : Decidable (AreApart ts) :=
  decidable_of_iff
    ((∀ t ∈ ts, t.start.isValid = true ∧ t.start < t.stop) ∧ ts.Pairwise fun t u =>
      t.stop ≤ u.start)
    ⟨fun h => ⟨h.1, h.2⟩, fun h => ⟨h.placed, h.ordered⟩⟩

namespace AreApart

variable {ts us : List Tree} {x : Tree}

theorem sublist (h : AreApart ts) (hsub : us.Sublist ts) : AreApart us where
  placed t ht := h.placed t (hsub.subset ht)
  ordered := h.ordered.sublist hsub

theorem isValid_stop (h : AreApart ts) (hx : x ∈ ts) : x.stop.isValid = true :=
  Pos.isValid_of_lt (h.placed x hx).2

/-- The first of some values begins first. -/
theorem start_le (h : AreApart ts) (hx : ts.head? = some x) : ∀ t ∈ ts, x.start ≤ t.start := by
  obtain ⟨us, rfl⟩ := List.head?_eq_some_iff.mp hx
  obtain ⟨hfirst, -⟩ := List.pairwise_cons.mp h.ordered
  obtain ⟨-, hlt⟩ := h.placed x List.mem_cons_self
  refine List.forall_mem_cons.mpr ⟨Pos.le_refl _, fun t ht => ?_⟩
  exact Pos.le_trans (Nat.le_of_lt hlt) (hfirst t ht)

/-- The last of some values ends last. -/
theorem le_stop (h : AreApart ts) (hx : ts.getLast? = some x) : ∀ t ∈ ts, t.stop ≤ x.stop := by
  obtain ⟨us, rfl⟩ := List.getLast?_eq_some_iff.mp hx
  obtain ⟨-, -, hlast⟩ := List.pairwise_append.mp h.ordered
  obtain ⟨-, hlt⟩ := h.placed x (List.mem_append_right _ List.mem_cons_self)
  refine List.forall_mem_append.mpr ⟨fun t ht => ?_, List.forall_mem_singleton.mpr (Pos.le_refl _)⟩
  exact Pos.le_trans (hlast t ht x List.mem_cons_self) (Nat.le_of_lt hlt)

end AreApart

end Tree

/-! ### The neighbours of a run -/

/-- Where a run begins: behind the element before it, or else where its first element or the one
behind it begins. -/
def runStart (before run after : List Tree) : Option Pos :=
  before.getLast?.map Tree.stop <|> run.head?.map Tree.start <|> after.head?.map Tree.start

/-- Where a run ends: before the element behind it, or else where its last element ends, or where it
begins. -/
def runStop (before run after : List Tree) : Option Pos :=
  after.head?.map Tree.start <|> run.getLast?.map Tree.stop <|> runStart before run after

variable {before run after : List Tree}

/-- All elements of a list that stands apart have places, so none of them is passed over. -/
theorem runSpan_eq (h : Tree.AreApart (before ++ (run ++ after))) :
    runSpan (before ++ (run ++ after)) before.length (before.length + run.length) =
      .between (runStart before run after) (runStop before run after) := by
  have hvalid {t : Tree} (ht : t ∈ before ++ (run ++ after)) : t.start.isValid = true ∧
      t.stop.isValid = true :=
    ⟨(h.placed t ht).1, h.isValid_stop ht⟩
  have hbefore {t : Tree} (ht : before.getLast? = some t) :=
    hvalid (List.mem_append_left _ (List.mem_of_getLast? ht))
  have hrun {t : Tree} (ht : t ∈ run) :=
    hvalid (List.mem_append_right _ (List.mem_append_left _ ht))
  have hafter {t : Tree} (ht : after.head? = some t) :=
    hvalid (List.mem_append_right _ (List.mem_append_right _ (List.mem_of_head? ht)))
  have hbind {o : Option Tree} {f : Tree → Pos} (ho : ∀ t, o = some t → (f t).isValid = true) :
      (o.bind fun t => if (f t).isValid then some (f t) else none) = o.map f := by
    cases o with
    | none => rfl
    | some t => exact if_pos (ho t rfl)
  have hprev : (if before.length = 0 then none else (before ++ (run ++ after))[before.length - 1]?)
      =
      before.getLast? := by
    rcases List.eq_nil_or_concat before with rfl | ⟨front, b, rfl⟩
    · rfl
    · simp
  have hnext : (before ++ (run ++ after))[before.length + run.length]? = after.head? := by
    rw [← List.append_assoc, ← List.length_append, List.getElem?_append_right (Nat.le_refl _),
      Nat.sub_self, List.head?_eq_getElem?]
  unfold runSpan
  dsimp only
  rw [Pattern.take_drop_run, hprev, hnext, hbind fun t ht => (hbefore ht).2, hbind fun t ht =>
    (hafter ht).1, hbind fun t ht => (hrun (List.mem_of_head? ht)).1, hbind fun t ht =>
      (hrun (List.mem_of_getLast? ht)).2]
  rfl

/-- A run begins behind all elements before it, and before its own and those behind it. -/
theorem runStart_spec {s : Pos} (h : Tree.AreApart (before ++ (run ++ after)))
    (hs : runStart before run after = some s) :
    s.isValid = true ∧ (∀ t ∈ before, t.stop ≤ s) ∧ (∀ t ∈ run ++ after, s ≤ t.start) ∧
      ∀ t, before.getLast? = some t → s = t.stop := by
  obtain ⟨-, -, hcross⟩ := List.pairwise_append.mp h.ordered
  unfold runStart at hs
  cases hbefore : before.getLast? with
  | some b =>
    rw [hbefore] at hs
    cases hs
    have hb := List.mem_of_getLast? hbefore
    refine ⟨h.isValid_stop (List.mem_append_left _ hb),
      (h.sublist (List.sublist_append_left _ _)).le_stop hbefore, hcross b hb, ?_⟩
    rintro t ⟨⟩
    rfl
  | none =>
    obtain rfl := List.getLast?_eq_none_iff.mp hbefore
    have hhead : (run ++ after).head?.map Tree.start = some s := by
      rw [← hs, List.head?_append]
      cases run.head? <;> rfl
    obtain ⟨x, hx, rfl⟩ := Option.map_eq_some_iff.mp hhead
    exact ⟨(h.placed x (List.mem_of_head? hx)).1, nofun, h.start_le hx, nofun⟩

theorem eq_nil_of_runStart (hs : runStart before run after = none) :
    before = [] ∧ run = [] ∧ after = [] := by
  unfold runStart at hs
  rw [← List.getLast?_eq_none_iff, ← List.head?_eq_none_iff, ← List.head?_eq_none_iff]
  cases hbefore : before.getLast? with
  | some b => simp [hbefore] at hs
  | none =>
    cases hrun : run.head? with
    | some x => simp [hrun, hbefore] at hs
    | none => simpa [hrun, hbefore] using hs

/-- A run ends before all elements behind it, and behind its own. -/
theorem runStop_spec {s e : Pos} (h : Tree.AreApart (before ++ (run ++ after)))
    (hs : runStart before run after = some s) (he : runStop before run after = some e) :
    s ≤ e ∧ (∀ t ∈ run, t.stop ≤ e) ∧ (∀ t ∈ after, e ≤ t.start) ∧ ∀ t, after.head? = some t →
      e = t.start := by
  obtain ⟨-, -, hle, -⟩ := runStart_spec h hs
  have hrest := h.sublist (List.sublist_append_right before _)
  obtain ⟨-, -, hcross⟩ := List.pairwise_append.mp hrest.ordered
  unfold runStop at he
  cases hafter : after.head? with
  | some a =>
    rw [hafter] at he
    cases he
    have ha := List.mem_of_head? hafter
    refine ⟨hle a (List.mem_append_right _ ha), fun t ht => hcross t ht a ha,
      (hrest.sublist (List.sublist_append_right _ _)).start_le hafter, ?_⟩
    rintro t ⟨⟩
    rfl
  | none =>
    obtain rfl := List.head?_eq_none_iff.mp hafter
    rw [hs] at he
    cases hrun : run.getLast? with
    | some x =>
      rw [hrun] at he
      cases he
      have hx := List.mem_append_left [] (List.mem_of_getLast? hrun)
      have hlt := (hrest.placed x hx).2
      exact ⟨Pos.le_trans (hle x hx) (Nat.le_of_lt hlt),
        (hrest.sublist (List.sublist_append_left _ _)).le_stop hrun, nofun, nofun⟩
    | none =>
      obtain rfl := List.getLast?_eq_none_iff.mp hrun
      cases he
      exact ⟨Pos.le_refl _, nofun, nofun, nofun⟩

/-- How the range of a run of list elements lies between the elements before and behind it: it
covers those of the run, meets no other, and reaches up to its neighbours. -/
structure Span.FitsRun (s : Span) (before run after : List Tree) : Prop where
  isValid : before ++ (run ++ after) ≠ [] → s.isValid = true
  covers : ∀ t ∈ run, s.start ≤ t.start ∧ t.stop ≤ s.stop
  behind : ∀ t ∈ before, t.stop ≤ s.start
  ahead : ∀ t ∈ after, s.stop ≤ t.start
  start : ∀ t, before.getLast? = some t → s.start = t.stop
  stop : ∀ t, after.head? = some t → s.stop = t.start

/-- **The range of a run covers its elements and meets no other.** -/
theorem Tree.AreApart.runSpan_fits (h : AreApart (before ++ (run ++ after))) :
    (runSpan (before ++ (run ++ after)) before.length (before.length + run.length)).FitsRun before
      run after := by
  rw [runSpan_eq h]
  cases hs : runStart before run after with
  | none =>
    obtain ⟨rfl, rfl, rfl⟩ := eq_nil_of_runStart hs
    exact ⟨absurd rfl, nofun, nofun, nofun, nofun, nofun⟩
  | some s =>
    obtain ⟨e, he⟩ : ∃ e, runStop before run after = some e := by
      unfold runStop
      rw [hs]
      cases after.head? <;> cases run.getLast? <;> exact ⟨_, rfl⟩
    obtain ⟨hvalid, hbefore, hfrom, hstart⟩ := runStart_spec h hs
    obtain ⟨hle, hrun, hafter, hstop⟩ := runStop_spec h hs he
    have hvalid' : e.isValid = true := by
      simp only [Pos.isValid, bne_iff_ne, Pos.le_def] at hvalid hle ⊢
      omega
    rw [he, Span.between, if_pos hle]
    refine ⟨fun _ => ?_, fun t ht => ⟨hfrom t (List.mem_append_left _ ht), hrun t ht⟩, hbefore,
      hafter, hstart, hstop⟩
    simp [Span.isValid, hvalid, hvalid', hle]

namespace Span.FitsRun

variable {s : Span} {x t : Tree} {p : Pos}

/-- A position of a list that begins with a run is behind the run, unless it is in the range of
it. -/
theorem start_le (h : s.FitsRun [] run after) (hx : (run ++ after).head? = some x)
    (ht : after.head? = some t) (hle : x.start ≤ p) (hnot : ¬ s.Holds p) : t.start ≤ p := by
  cases run with
  | nil =>
    rw [List.nil_append, ht] at hx
    cases hx
    exact hle
  | cons y run =>
    cases hx
    have hstart := (h.covers x List.mem_cons_self).1
    rw [← h.stop t ht]
    exact Nat.le_of_not_lt fun hlt => hnot ⟨h.isValid (List.cons_ne_nil _ _),
      Pos.le_trans hstart hle, hlt⟩

/-- A position of a list that ends with a run is before the run, unless it is in the range of it. -/
theorem lt_stop (h : s.FitsRun before run []) (hx : (before ++ run).getLast? = some x)
    (ht : before.getLast? = some t) (hlt : p < x.stop) (hnot : ¬ s.Holds p) : p < t.stop := by
  rcases List.eq_nil_or_concat run with rfl | ⟨run, y, rfl⟩
  · rw [List.append_nil, ht] at hx
    cases hx
    exact hlt
  · rw [List.concat_eq_append, ← List.append_assoc, List.getLast?_concat] at hx
    cases hx
    have hstop := (h.covers x (by simp)).2
    rw [← h.start t ht]
    exact Nat.lt_of_not_le fun hle => hnot ⟨h.isValid (by simp), hle, Nat.lt_of_lt_of_le hlt hstop⟩

end Span.FitsRun

/-! ### Runs of a match -/

namespace Pattern

variable {front : List Tree} {sections : List (Key × List Pattern)} {c e : Captures}
  {parts : List Part} {i : Nat}
  {x : Part}

theorem split_at (hx : parts[i]? = some x) : parts = parts.take i ++ x :: parts.drop (i + 1) := by
  obtain ⟨hi, rfl⟩ := List.getElem?_eq_some_iff.mp hx
  rw [List.cons_getElem_drop_succ, List.take_append_drop]

theorem items_subset_elements (parts : List Part) : parts.flatMap (·.items) ⊆ elements parts := by
  intro t ht
  obtain ⟨x, hx, ht⟩ := List.mem_flatMap.mp ht
  exact List.mem_flatMap.mpr ⟨x, hx, List.mem_append_right _ ht⟩

/-- The range of a run that is cut out of a list fits between the elements before and behind it. -/
theorem Placed.exists_fitsRun (h : Placed front sections c parts e)
    (hkeys : (sections.map (·.1)).Nodup)
    (hfree : ∀ key ∈ sections.map (·.1), ∀ s ∈ sections, key ∉ keysAll s.2)
    (hapart : Tree.AreApart (front ++ elements parts)) {s : Key × List Pattern}
    (hs : sections[i]? = some s) (hx : parts[i]? = some x) :
    ∃ span, e.run? s.1 = some (x.run, span) ∧
      span.FitsRun (front ++ elements (parts.take i)) x.run
      (x.items ++ elements (parts.drop (i + 1))) := by
  have hwhole : front ++ elements parts = (front ++ elements (parts.take i)) ++
      (x.run ++ (x.items ++ elements (parts.drop (i + 1)))) := by
    conv_lhs => rw [split_at hx]
    rw [elements_append, elements_cons, List.append_assoc]
  have hrun := h.run?_eq hkeys hfree hs hx
  rw [hwhole] at hrun hapart
  exact ⟨_, hrun, hapart.runSpan_fits⟩

/-- A run at the beginning of a list, and its range. -/
theorem Placed.exists_fits_first (h : Placed [] sections c parts e)
    (hkeys : (sections.map (·.1)).Nodup)
    (hfree : ∀ key ∈ sections.map (·.1), ∀ s ∈ sections, key ∉ keysAll s.2)
    (hapart : Tree.AreApart (elements parts)) {key : Key} {ps : List Pattern}
    {rest : List (Key × List Pattern)} (heq : sections = (key, ps) :: rest) :
    ∃ run span after, elements parts = run ++ after ∧ e.run? key = some (run, span) ∧
      span.FitsRun [] run after := by
  subst heq
  obtain ⟨x, behind, rfl⟩ : ∃ x behind, parts = x :: behind := by
    cases h
    exact ⟨_, _, rfl⟩
  obtain ⟨span, hrun, hfits⟩ := h.exists_fitsRun (i := 0) hkeys hfree hapart rfl rfl
  exact ⟨x.run, span, x.items ++ elements behind, elements_cons x behind, hrun, hfits⟩

/-- A run at the end of a list, and its range. -/
theorem Placed.exists_fits_last (h : Placed front sections c parts e)
    (hkeys : (sections.map (·.1)).Nodup)
    (hfree : ∀ key ∈ sections.map (·.1), ∀ s ∈ sections, key ∉ keysAll s.2)
    (hapart : Tree.AreApart (front ++ elements parts)) {key : Key}
    {rest : List (Key × List Pattern)} (heq : sections = rest ++ [(key, [])]) :
    ∃ before run span, front ++ elements parts = before ++ run ∧ e.run? key = some (run, span) ∧
      span.FitsRun before run [] := by
  subst heq
  obtain ⟨before, run, -, rfl, -, hlengths⟩ := h.exists_last
  have hs : (rest ++ [(key, [])])[before.length]? = some (key, []) := by
    rw [← hlengths.length_eq, List.getElem?_concat_length]
  obtain ⟨span, hrun, hfits⟩ := h.exists_fitsRun hkeys hfree hapart hs List.getElem?_concat_length
  rw [List.take_left, List.drop_eq_nil_of_le (by simp)] at hfits
  exact ⟨front ++ elements before, run, span, by simp, hrun, hfits⟩

/-- **The range on record for a run covers the run and meets no element that is matched.** -/
theorem Placed.runs_fit (h : Placed front sections c parts e) (hkeys : (sections.map (·.1)).Nodup)
    (hfree : ∀ key ∈ sections.map (·.1), ∀ s ∈ sections, key ∉ keysAll s.2)
    (hapart : Tree.AreApart (front ++ elements parts)) :
    List.Forall₂ (fun s x => ∃ span, e.run? s.1 = some (x.run, span) ∧
      (∀ t ∈ x.run, span.start ≤ t.start ∧ t.stop ≤ span.stop) ∧
      ∀ u ∈ front ++ parts.flatMap (·.items), u.stop ≤ span.start ∨
      span.stop ≤ u.start) sections parts := by
  refine List.forall₂_iff_get.mpr ⟨h.lengths.length_eq, fun i hs hx => ?_⟩
  have hget := List.getElem?_eq_getElem hx
  obtain ⟨span, hrun, hfits⟩ :=
    h.exists_fitsRun hkeys hfree hapart (List.getElem?_eq_getElem hs) hget
  refine ⟨span, hrun, hfits.covers, fun u hu => ?_⟩
  rw [split_at hget, List.flatMap_append, List.flatMap_cons] at hu
  rcases List.mem_append.mp hu with hu | hu
  · exact .inl (hfits.behind u (List.mem_append_left _ hu))
  · rcases List.mem_append.mp hu with hu | hu
    · exact .inl (hfits.behind u (List.mem_append_right _ (items_subset_elements _ hu)))
    · rcases List.mem_append.mp hu with hu | hu
      · exact .inr (hfits.ahead u (List.mem_append_left _ hu))
      · exact .inr (hfits.ahead u (List.mem_append_right _ (items_subset_elements _ hu)))

end Pattern

end Graft
