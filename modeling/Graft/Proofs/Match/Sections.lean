import Graft.Proofs.Match.Occurrences

/-! # Lists cut at wildcards

A match of a list with wildcards cuts the list: into what its front matches and, for each section,
the run of the wildcard before it and the elements it matches (`Pattern.Part`).  The cut that is
found is described by `Pattern.Placed`: each section matches its elements from what was bound before
it, no section but the last could have been placed further to the left, and with the last one the
list ends.  Matching finds this cut and no other (`Pattern.matchSections_iff_placed`), so nothing of
the list is lost or used twice, and what is filed under the key of a wildcard is the run that was
cut out for it (`Pattern.match?_runs_iff`).
-/

namespace Graft

namespace Pattern

/-! ### Finding a place -/

/-- A search finds the first start at which the attempt succeeds. -/
theorem firstStart_eq_some_iff {attempt : Nat → Option Captures} {first count i : Nat}
    {c : Captures} :
    firstStart attempt first count = some (i, c) ↔
      (first ≤ i ∧ i < first + count) ∧ attempt i = some c ∧ ∀ j, first ≤ j → j < i →
      attempt j = none := by
  induction count generalizing first with
  | zero =>
    simp only [firstStart, List.range'_zero, List.findSome?_nil]
    exact ⟨nofun, fun h => by omega⟩
  | succ count ih =>
    have hstep : firstStart attempt first (count + 1) =
        ((attempt first).map (first, ·)).or (firstStart attempt (first + 1) count) := by
      rw [firstStart, List.range'_succ, List.findSome?_cons]
      cases attempt first <;> rfl
    rw [hstep]
    cases hfirst : attempt first with
    | none =>
      rw [Option.map_none, Option.none_or, ih]
      constructor
      · rintro ⟨⟨hle, hlt⟩, hi, hbefore⟩
        refine ⟨⟨by omega, by omega⟩, hi, fun j hj hji => ?_⟩
        by_cases hne : j = first
        · rw [hne]
          exact hfirst
        · exact hbefore j (by omega) hji
      · rintro ⟨⟨hle, hlt⟩, hi, hbefore⟩
        have hne : i ≠ first := by
          rintro rfl
          rw [hfirst] at hi
          cases hi
        exact ⟨⟨by omega, by omega⟩, hi, fun j hj hji => hbefore j (by omega) hji⟩
    | some c₁ =>
      rw [Option.map_some, Option.some_or, Option.some.injEq, Prod.mk.injEq]
      constructor
      · rintro ⟨rfl, rfl⟩
        exact ⟨⟨Nat.le_refl _, by omega⟩, hfirst, fun j hj hji => by omega⟩
      · rintro ⟨⟨hle, hlt⟩, hi, hbefore⟩
        by_cases hne : i = first
        · subst hne
          rw [hfirst] at hi
          exact ⟨rfl, Option.some.inj hi⟩
        · have hnone := hbefore first (Nat.le_refl _) (by omega)
          rw [hfirst] at hnone
          cases hnone

/-- **Where a section is placed**: at the first start from the cursor on, and the last section at
the end. -/
theorem place?_eq_some_iff {ts : List Tree} {ps : List Pattern} {rest : List (Key × List Pattern)}
    {cursor start : Nat} {c e : Captures} :
    place? ts ps rest cursor c = some (start, e) ↔
      (cursor ≤ start ∧ start + ps.length ≤ ts.length) ∧
        matchAll replays ps ((ts.drop start).take ps.length) c = some e ∧
        (rest = [] → start + ps.length = ts.length) ∧
        (rest ≠ [] → ∀ i, cursor ≤ i → i < start →
          matchAll replays ps ((ts.drop i).take ps.length) c = none) := by
  unfold place?
  dsimp only
  by_cases hlength : ts.length < cursor + ps.length
  · rw [if_pos hlength]
    exact ⟨nofun, fun h => by omega⟩
  · rw [if_neg hlength]
    by_cases hrest : rest = []
    · rw [if_pos (List.isEmpty_iff.mpr hrest), firstStart_eq_some_iff]
      constructor
      · rintro ⟨hrange, hitems, -⟩
        exact ⟨by omega, hitems, fun _ => by omega, fun h => absurd hrest h⟩
      · rintro ⟨hrange, hitems, hend, -⟩
        have hlast := hend hrest
        exact ⟨by omega, hitems, fun j hj hji => by omega⟩
    · rw [if_neg (by simpa using hrest), firstStart_eq_some_iff]
      constructor
      · rintro ⟨hrange, hitems, hbefore⟩
        exact ⟨by omega, hitems, fun h => absurd h hrest, fun _ => hbefore⟩
      · rintro ⟨hrange, hitems, -, hbefore⟩
        exact ⟨by omega, hitems, hbefore hrest⟩

/-! ### Cuts -/

/-- What a wildcard and the section behind it take up of a list. -/
structure Part where
  /-- The elements that the wildcard skips. -/
  run : List Tree
  /-- The elements that the section matches. -/
  items : List Tree

/-- The elements of some parts in order. -/
def elements (parts : List Part) : List Tree := parts.flatMap fun x => x.run ++ x.items

@[simp] theorem elements_nil : elements [] = [] := rfl

@[simp] theorem elements_cons (x : Part) (parts : List Part) :
    elements (x :: parts) = x.run ++ (x.items ++ elements parts) := by
  rw [elements, List.flatMap_cons, List.append_assoc]
  rfl

@[simp] theorem elements_append (xs ys : List Part) :
    elements (xs ++ ys) = elements xs ++ elements ys :=
  List.flatMap_append

/-- How sections are placed in what follows the front of a list.  Each section matches its elements
one by one from the captures so far, and its run is filed under its key then; a section that others
follow matches at no place before its own. -/
inductive Placed :
    List Tree → List (Key × List Pattern) → Captures → List Part → Captures → Prop where
  | nil (front : List Tree) (c : Captures) : Placed front [] c [] c
  | cons {front : List Tree} {key : Key} {ps : List Pattern}
      {rest : List (Key × List Pattern)} {x : Part}
      {parts : List Part} {c c₁ e : Captures} (hitems : matchAll replays ps x.items c = some c₁)
      (hfirst : rest ≠ [] → ∀ i < x.run.length,
        matchAll replays ps (((elements (x :: parts)).drop i).take ps.length) c = none)
      (hrest : Placed (front ++ x.run ++ x.items) rest
        (c₁.bind key (.run x.run
          (runSpan (front ++ elements (x :: parts)) front.length (front.length + x.run.length))))
          parts e) :
    Placed front ((key, ps) :: rest) c (x :: parts) e

/-- A list from one element on, cut at two later ones. -/
theorem exists_part {front behind : List Tree} {start n : Nat} (hstart : front.length ≤ start)
    (hstop : start + n ≤ (front ++ behind).length) :
    ∃ (x : Part) (after : List Tree), behind = x.run ++ (x.items ++ after) ∧
      start = front.length + x.run.length ∧ n = x.items.length := by
  obtain ⟨m, rfl⟩ := Nat.exists_eq_add_of_le hstart
  rw [List.length_append] at hstop
  refine ⟨⟨behind.take m, (behind.drop m).take n⟩, (behind.drop m).drop n, ?_, ?_, ?_⟩
  · simp only [List.take_append_drop]
  · simp only [List.length_take]
    omega
  · simp only [List.length_take, List.length_drop]
    omega

section Cut

variable {front run items after : List Tree}

theorem take_drop_run :
    ((front ++ (run ++ after)).take (front.length + run.length)).drop front.length = run := by
  rw [← List.append_assoc, ← List.length_append, List.take_left, List.drop_left]

theorem drop_run : (front ++ (run ++ after)).drop (front.length + run.length) = after := by
  rw [← List.append_assoc, ← List.length_append, List.drop_left]

theorem take_items : (items ++ after).take items.length = items := List.take_left

end Cut

/-- **Matching places sections, and in one way only.** -/
theorem matchSections_iff_placed {sections : List (Key × List Pattern)} {front behind : List Tree}
    {c e : Captures} :
    matchSections replays (front ++ behind) sections front.length c = some e ∧
      (sections = [] → behind = []) ↔
      ∃ parts, elements parts = behind ∧ Placed front sections c parts e := by
  induction sections generalizing front behind c with
  | nil =>
    constructor
    · rintro ⟨hmatch, hend⟩
      cases hmatch
      exact ⟨[], (hend rfl).symm, .nil front _⟩
    · rintro ⟨parts, rfl, hplaced⟩
      cases hplaced
      exact ⟨rfl, fun _ => rfl⟩
  | cons section_ rest ih =>
    obtain ⟨key, ps⟩ := section_
    constructor
    · rintro ⟨hmatch, -⟩
      rw [matchSections_eq_place?] at hmatch
      obtain ⟨⟨start, c₁⟩, hplace, hmatch⟩ := Option.bind_eq_some_iff.mp hmatch
      obtain ⟨⟨hstart, hstop⟩, hitems, hend, hfirst⟩ := place?_eq_some_iff.mp hplace
      obtain ⟨x, after, rfl, rfl, hlength⟩ := exists_part hstart hstop
      simp only [drop_run, take_drop_run, hlength, take_items] at hitems hmatch
      -- what follows the section is placed behind the part that was cut off
      have hfront : (front ++ x.run ++ x.items).length =
          front.length + x.run.length + x.items.length := by
        simp only [List.length_append]
      have hwhole : front ++ x.run ++ x.items ++ after = front ++
          (x.run ++ (x.items ++ after)) := by
        simp only [List.append_assoc]
      obtain ⟨parts, rfl, hplaced⟩ := ih.mp ⟨by rw [hfront, hwhole]; exact hmatch, fun hnil => by
        have hlast := hend hnil
        simp only [List.length_append, hlength] at hlast
        exact List.length_eq_zero_iff.mp (by omega)⟩
      refine ⟨x :: parts, elements_cons x parts, .cons hitems (fun hne i hi => ?_) ?_⟩
      · have hnone := hfirst hne (front.length + i) (by omega) (by omega)
        rwa [← List.drop_drop, List.drop_left, ← elements_cons] at hnone
      · rw [elements_cons]
        exact hplaced
    · rintro ⟨parts, rfl, hplaced⟩
      refine ⟨?_, nofun⟩
      cases hplaced with
      | @cons _ _ _ _ x parts _ c₁ _ hitems hfirst hrest =>
        have hlength := length_eq_of_matchAll hitems
        obtain ⟨hmatch, hend⟩ := ih.mpr ⟨parts, rfl, hrest⟩
        have hplace : place? (front ++ elements (x :: parts)) ps rest front.length c =
            some (front.length + x.run.length, c₁) := by
          rw [place?_eq_some_iff, elements_cons]
          refine ⟨⟨by omega, ?_⟩, ?_, fun hnil => ?_, fun hne i hi hlt => ?_⟩
          · simp only [List.length_append]
            omega
          · rw [drop_run, ← hlength, take_items]
            exact hitems
          · rw [hend hnil]
            simp only [List.length_append, List.length_nil]
            omega
          · obtain ⟨j, rfl⟩ := Nat.exists_eq_add_of_le hi
            rw [← List.drop_drop, List.drop_left, ← elements_cons]
            exact hfirst hne j (by omega)
        rw [matchSections_eq_place?, hplace, Option.bind_some]
        dsimp only
        rw [elements_cons, take_drop_run, ← hlength]
        simp only [List.length_append, List.append_assoc] at hmatch
        rw [elements_cons] at hmatch
        simpa only [Nat.add_assoc] using hmatch

/-- A list with wildcards is matched by its front and then by its sections. -/
theorem match?_runs_iff_placed {front : List Pattern} {sections : List (Key × List Pattern)}
    (hne : sections ≠ []) {ts : List Tree} {c e : Captures} :
    (runs front sections).match? (.list ts) c = some e ↔
      ∃ head parts c₀, ts = head ++ elements parts ∧ matchAll replays front head c = some c₀ ∧
        Placed head sections c₀ parts e := by
  unfold match?
  simp only [matchWith, Option.ite_none_left_eq_some, Nat.not_lt]
  constructor
  · rintro ⟨hlength, hmatch⟩
    obtain ⟨c₀, hfront, hsections⟩ := Option.bind_eq_some_iff.mp hmatch
    have htake : (ts.take front.length).length = front.length := List.length_take_of_le hlength
    have hwhole : matchSections replays (ts.take front.length ++ ts.drop front.length) sections
        (ts.take front.length).length c₀ = some e := by
      rw [List.take_append_drop, htake]
      exact hsections
    obtain ⟨parts, hparts, hplaced⟩ :=
      matchSections_iff_placed.mp ⟨hwhole, fun hnil => absurd hnil hne⟩
    exact ⟨_, parts, c₀, by rw [hparts, List.take_append_drop], hfront, hplaced⟩
  · rintro ⟨head, parts, c₀, rfl, hfront, hplaced⟩
    have hlength := length_eq_of_matchAll hfront
    obtain ⟨hsections, -⟩ := matchSections_iff_placed.mpr ⟨parts, rfl, hplaced⟩
    refine ⟨?_, ?_⟩
    · rw [List.length_append]
      omega
    · rw [← hlength, List.take_left, hfront]
      exact hsections

/-! ### Runs on record -/

theorem mem_sectionKeys {k : Key} {sections : List (Key × List Pattern)} :
    k ∈ sectionKeys sections ↔ ∃ s ∈ sections, k = s.1 ∨ k ∈ keysAll s.2 := by
  induction sections with
  | nil => simp [sectionKeys]
  | cons s sections ih =>
    rw [sectionKeys, List.mem_cons, List.mem_append, ih, List.exists_mem_cons_iff, or_assoc]

/-- Sections that are placed bind their keys and no others. -/
theorem Placed.get?_eq {front : List Tree} {sections : List (Key × List Pattern)} {c e : Captures}
    {parts : List Part} (h : Placed front sections c parts e) {k : Key}
    (hk : k ∉ sectionKeys sections) :
    e.get? k = c.get? k := by
  induction h with
  | nil => rfl
  | cons hitems _ _ ih =>
    rw [sectionKeys, List.mem_cons, List.mem_append, not_or, not_or] at hk
    rw [ih hk.2.2, Captures.get?_bind, if_neg (Ne.symm hk.1), matchAll_frame _ hitems hk.2.1]

/-- A section matches as many elements as it has patterns. -/
theorem Placed.lengths {front : List Tree} {sections : List (Key × List Pattern)} {c e : Captures}
    {parts : List Part} (h : Placed front sections c parts e) :
    List.Forall₂ (fun s x => x.items.length = s.2.length) sections parts := by
  induction h with
  | nil => exact .nil
  | cons hitems _ _ ih => exact .cons (length_eq_of_matchAll hitems) ih

/-- A wildcard at the end takes what is left, and nothing hides its run. -/
theorem Placed.exists_last {front : List Tree} {sections : List (Key × List Pattern)} {key : Key}
    {c e : Captures} {parts : List Part} (h : Placed front (sections ++ [(key, [])]) c parts e) :
    ∃ before run span, parts = before ++ [⟨run, []⟩] ∧ e.run? key = some (run, span) ∧
      List.Forall₂ (fun s x => x.items.length = s.2.length) sections before := by
  induction sections generalizing front c parts with
  | nil =>
    cases h with
    | @cons _ _ _ _ x _ _ c₁ _ hitems _ hrest =>
      cases hrest
      obtain ⟨run, items⟩ := x
      obtain rfl : items = [] := List.length_eq_zero_iff.mp (length_eq_of_matchAll hitems)
      exact ⟨[], run, _, rfl, Captures.run?_of_get? (by rw [Captures.get?_bind, if_pos rfl]), .nil⟩
  | cons s sections ih =>
    cases h with
    | @cons _ _ _ _ x _ _ _ _ hitems _ hrest =>
      obtain ⟨before, run, span, rfl, hrun, hlengths⟩ := ih hrest
      exact ⟨x :: before, run, span, rfl, hrun, .cons (length_eq_of_matchAll hitems) hlengths⟩

/-- The run of each wildcard is on record under its key, with its range in the list, if no key is
used twice. -/
theorem Placed.run?_eq {front : List Tree} {sections : List (Key × List Pattern)} {c e : Captures}
    {parts : List Part} (h : Placed front sections c parts e) (hkeys : (sections.map (·.1)).Nodup)
    (hfree : ∀ key ∈ sections.map (·.1), ∀ s ∈ sections, key ∉ keysAll s.2) {i : Nat}
    {s : Key × List Pattern} {x : Part} (hs : sections[i]? = some s) (hx : parts[i]? = some x) :
    e.run? s.1 = some
      (x.run, runSpan (front ++ elements parts) (front ++ elements (parts.take i)).length
      ((front ++ elements (parts.take i)).length + x.run.length)) := by
  induction h generalizing i with
  | nil => cases hs
  | @cons front key _ rest y parts _ c₁ e _ _ hrest ih =>
    rw [List.map_cons, List.nodup_cons] at hkeys
    rw [List.map_cons] at hfree
    obtain ⟨hkey, hfree⟩ := List.forall_mem_cons.mp hfree
    cases i with
    | zero =>
      cases hs
      cases hx
      -- nothing behind the section binds its key again
      have hother : key ∉ sectionKeys rest := by
        rw [mem_sectionKeys]
        rintro ⟨s, hs, rfl | hmem⟩
        · exact hkeys.1 (List.mem_map.mpr ⟨s, hs, rfl⟩)
        · exact hkey s (List.mem_cons_of_mem _ hs) hmem
      have hstays := hrest.get?_eq hother
      rw [Captures.get?_bind, if_pos rfl] at hstays
      rw [List.take_zero, elements_nil, List.append_nil]
      exact Captures.run?_of_get? hstays
    | succ i =>
      have hrun := ih hkeys.2 (fun k hk s hs => hfree k hk s (List.mem_cons_of_mem _ hs)) hs hx
      rw [List.take_succ_cons, elements_cons, elements_cons]
      simpa only [List.append_assoc] using hrun

/-- **The run of each wildcard is on record under its key**, if no key is used twice. -/
theorem Placed.recorded {front : List Tree} {sections : List (Key × List Pattern)} {c e : Captures}
    {parts : List Part} (h : Placed front sections c parts e) (hkeys : (sections.map (·.1)).Nodup)
    (hfree : ∀ key ∈ sections.map (·.1), ∀ s ∈ sections, key ∉ keysAll s.2) :
    List.Forall₂ (fun s x => ∃ span, e.run? s.1 = some (x.run, span)) sections parts := by
  refine List.forall₂_iff_get.mpr ⟨h.lengths.length_eq, fun i hs hx => ?_⟩
  have hrun := h.run?_eq hkeys hfree (List.getElem?_eq_getElem hs) (List.getElem?_eq_getElem hx)
  exact ⟨_, hrun⟩

/-- **A match of a list with wildcards is a cut of the list.**  The elements are those of the front
and then, for each wildcard, its run and what the section behind it matches; all are matched one by
one from the captures so far, each section but the last as far to the left as it goes and the last
one at the end; and the run of each wildcard is on record under its key.  The other way round, such
a cut is found. -/
theorem match?_runs_iff {front : List Pattern} {sections : List (Key × List Pattern)}
    (hne : sections ≠ []) (hkeys : (sections.map (·.1)).Nodup)
    (hfree : ∀ key ∈ sections.map (·.1), key ∉ keysAll front ∧ ∀ s ∈ sections, key ∉ keysAll s.2)
    (ts : List Tree) (c e : Captures) :
    (runs front sections).match? (.list ts) c = some e ↔
      ∃ head parts c₀, ts = head ++ elements parts ∧ matchAll replays front head c = some c₀ ∧
        Placed head sections c₀ parts e ∧
        List.Forall₂ (fun s x => ∃ span, e.run? s.1 = some (x.run, span)) sections parts := by
  rw [match?_runs_iff_placed hne]
  constructor
  · rintro ⟨head, parts, c₀, hts, hfront, hplaced⟩
    exact ⟨head, parts, c₀, hts, hfront, hplaced, hplaced.recorded hkeys fun key hk =>
      (hfree key hk).2⟩
  · rintro ⟨head, parts, c₀, hts, hfront, hplaced, -⟩
    exact ⟨head, parts, c₀, hts, hfront, hplaced⟩

/-- Here the section behind the first wildcard is a metavariable that the front has bound: it passes
over `b`, and the second wildcard takes what is left. -/
theorem match?_runs_iff_bound :
    let ident (i : Nat) (name : String) : Tree := .node .ident [.pos ⟨i⟩, .str name]
    let x : Pattern := metavar "x" .expression
    let sections : List (Key × List Pattern) := [(.dots ⟨3⟩, [x]), (.dots ⟨9⟩, [])]
    let ts : List Tree := [ident 1 "a", ident 4 "b", ident 7 "a", ident 10 "c", ident 13 "a"]
    (sections ≠ [] ∧ (sections.map (·.1)).Nodup ∧
      ∀ key ∈ sections.map (·.1), key ∉ keysAll [x] ∧ ∀ s ∈ sections, key ∉ keysAll s.2) ∧
    ∃ e, (runs [x] sections).match? (.list ts) .empty = some e ∧
      ∃ head parts c₀, ts = head ++ elements parts ∧ matchAll replays [x] head .empty = some c₀ ∧
        Placed head sections c₀ parts e ∧
        List.Forall₂ (fun s x => ∃ span, e.run? s.1 = some (x.run, span)) sections parts := by
  intro ident x sections ts
  have hne : sections ≠ [] := by decide
  have hkeys : (sections.map (·.1)).Nodup := by decide
  have hfree : ∀ key ∈ sections.map (·.1), key ∉ keysAll [x] ∧
      ∀ s ∈ sections, key ∉ keysAll s.2 := by decide
  obtain ⟨e, he⟩ : ∃ e, (runs [x] sections).match? (.list ts) .empty = some e :=
    Option.isSome_iff_exists.mp (by decide)
  exact ⟨⟨hne, hkeys, hfree⟩, e, he, (match?_runs_iff hne hkeys hfree ts .empty e).mp he⟩

end Pattern

end Graft
