import Graft.Proofs.Match.Layout
import Graft.Proofs.Match.Sections
import Mathlib.Data.Nat.Find

/-! # The greedy search misses nothing

A section once placed is never moved, so with metavariables a list may be cut in a way that the
search does not find: what an early place binds may keep a later section from matching.  Without
metavariables what was bound does not matter, neither for a pattern nor for the sections inside it
(`Pattern.isSome_matchAll`).  Then the greedy search is complete: placing a section further to the
left only leaves more elements to the wildcard behind it, so that any cut of the list can be turned
into the one that is found, from left to right (`Pattern.exists_placed`).
-/

namespace Graft

namespace Pattern

/-! ### Patterns without metavariables -/

mutual

/-- Whether no metavariable occurs in a pattern, at any depth. -/
def isMetaFree : Pattern → Bool
  | node _ ps | list ps => areMetaFree ps
  | runs front sections => areMetaFree front && sectionsAreMetaFree sections
  | metavar _ _ => false
  | loop _ body => isMetaFree body
  | _ => true

/-- Whether no metavariable occurs in some patterns. -/
def areMetaFree : List Pattern → Bool
  | [] => true
  | p :: ps => isMetaFree p && areMetaFree ps

/-- Whether no metavariable occurs in some sections. -/
def sectionsAreMetaFree : List (Key × List Pattern) → Bool
  | [] => true
  | (_, items) :: rest => areMetaFree items && sectionsAreMetaFree rest

end

/-- Whether two attempts both succeed or both fail. -/
abbrev AgreeOnSuccess (x y : Option Captures) : Prop := Option.Rel (fun _ _ => True) x y

variable {replay : Tree → Tree → Bool}

mutual

theorem matchWith_agree (p : Pattern) (hp : p.isMetaFree = true) (t : Tree) (c c' : Captures) :
    AgreeOnSuccess (matchWith replay p t c) (matchWith replay p t c') := by
  match p with
  | nil =>
    rw [matchWith, matchWith]
    split
    · exact .some trivial
    · exact .none
  | node k ps =>
    cases t with
    | node l ts =>
      rw [matchWith, matchWith]
      split
      · exact matchAll_agree ps hp ts c c'
      · exact .none
    | _ => exact .none
  | list ps =>
    cases t with
    | list ts => exact matchAll_agree ps hp ts c c'
    | _ => exact .none
  | runs front sections =>
    obtain ⟨hfront, hsections⟩ := Bool.and_eq_true_iff.mp hp
    cases t with
    | list ts =>
      rw [matchWith, matchWith]
      split
      · exact .none
      · exact (matchAll_agree front hfront _ c c').bind
          fun c₁ c₁' _ => matchSections_agree sections hsections ts _ c₁ c₁'
    | _ => exact .none
  | pos p =>
    cases t with
    | pos q =>
      rw [matchWith, matchWith]
      split
      · exact .some trivial
      · split
        · exact .some trivial
        · exact .none
    | _ => exact .none
  | anyPos =>
    cases t with
    | pos q => exact .some trivial
    | _ => exact .none
  | str s =>
    cases t with
    | str u =>
      rw [matchWith, matchWith]
      split
      · exact .some trivial
      · exact .none
    | _ => exact .none
  | tok s =>
    cases t with
    | tok u =>
      rw [matchWith, matchWith]
      split
      · exact .some trivial
      · exact .none
    | _ => exact .none
  | doc p => exact .some trivial
  | any => exact .some trivial
  | metavar name kind => cases hp
  | fieldList p =>
    rw [matchWith, matchWith]
    split
    · exact .some trivial
    · exact .none
  | loop p body =>
    rw [matchWith, matchWith]
    cases t.node? with
    | none => exact .none
    | some n =>
      dsimp only
      split
      · exact (matchWith_agree body hp (n.get .body) c c').map fun _ _ _ => trivial
      · exact .none

theorem matchAll_agree (ps : List Pattern) (hps : areMetaFree ps = true) (ts : List Tree)
    (c c' : Captures) : AgreeOnSuccess (matchAll replay ps ts c) (matchAll replay ps ts c') := by
  match ps, ts with
  | [], [] => exact .some trivial
  | [], _ :: _ => exact .none
  | _ :: _, [] => exact .none
  | p :: ps, t :: ts =>
    obtain ⟨hp, hps⟩ := Bool.and_eq_true_iff.mp hps
    rw [matchAll, matchAll]
    exact (matchWith_agree p hp t c c').bind fun c₁ c₁' _ => matchAll_agree ps hps ts c₁ c₁'

theorem matchSections_agree (sections : List (Key × List Pattern))
    (hsections : sectionsAreMetaFree sections = true) (ts : List Tree) (cursor : Nat)
    (c c' : Captures) :
    AgreeOnSuccess (matchSections replay ts sections cursor c)
    (matchSections replay ts sections cursor c') := by
  match sections with
  | [] => exact .some trivial
  | (key, items) :: rest =>
    obtain ⟨hitems, hrest⟩ := Bool.and_eq_true_iff.mp hsections
    rw [matchSections_eq_bind, matchSections_eq_bind]
    split
    · exact .none
    · have hplace (first count : Nat) : Option.Rel (fun x y => x.1 = y.1)
          (firstStart (fun i => matchAll replay items ((ts.drop i).take items.length) c) first
            count)
          (firstStart (fun i => matchAll replay items ((ts.drop i).take items.length) c')
            first count) := by
        refine .findSome? (fun i => ?_) _
        exact (matchAll_agree items hitems _ c c').map fun _ _ _ => rfl
      -- the section is found at one place in both runs, so the rest begins at one place too
      refine .bind (R := fun x y => x.1 = y.1) ?_ fun ⟨i, d⟩ ⟨_, d'⟩ hi => ?_
      · split
        · exact hplace _ _
        · exact hplace _ _
      · obtain rfl := hi
        exact matchSections_agree rest hrest ts _ _ _

end

/-- **What was bound does not matter to patterns without metavariables.** -/
theorem isSome_matchAll {ps : List Pattern} (hps : areMetaFree ps = true) (ts : List Tree)
    (c c' : Captures) :
    (matchAll replay ps ts c).isSome = (matchAll replay ps ts c').isSome :=
  (matchAll_agree ps hps ts c c').isSome_eq

/-- Whether a pattern matches a value. -/
def Accepts (c : Captures) (p : Pattern) (t : Tree) : Prop := (p.match? t c).isSome = true

/-- Patterns without metavariables match values one by one, each for itself. -/
theorem isSome_matchAll_iff {ps : List Pattern} (hps : areMetaFree ps = true) {ts : List Tree}
    {c : Captures} :
    (matchAll replays ps ts c).isSome = true ↔ List.Forall₂ (Accepts c) ps ts := by
  induction ps generalizing ts with
  | nil =>
    cases ts with
    | nil => exact ⟨fun _ => .nil, fun _ => rfl⟩
    | cons t ts => exact ⟨nofun, nofun⟩
  | cons p ps ih =>
    cases ts with
    | nil => exact ⟨nofun, nofun⟩
    | cons t ts =>
      obtain ⟨-, hps⟩ := Bool.and_eq_true_iff.mp hps
      rw [List.forall₂_cons, ← ih hps, Accepts, match?, matchAll]
      cases matchWith replays p t c with
      | none => simp
      | some c₁ => simp [isSome_matchAll hps ts c₁ c]

/-! ### Cuts -/

/-- Whether parts of a list are matched by sections, each for itself. -/
def Fits (c : Captures) (sections : List (Key × List Pattern)) (parts : List Part) : Prop :=
  List.Forall₂ (fun s x => List.Forall₂ (Accepts c) s.2 x.items) sections parts

/-- What is placed fits. -/
theorem Placed.fits {front : List Tree} {sections : List (Key × List Pattern)} {c e : Captures}
    {parts : List Part} (h : Placed front sections c parts e)
    (hfree : sectionsAreMetaFree sections = true) (c' : Captures) : Fits c' sections parts := by
  induction h with
  | nil => exact .nil
  | cons hitems _ _ ih =>
    obtain ⟨hps, hrest⟩ := Bool.and_eq_true_iff.mp hfree
    refine .cons ((isSome_matchAll_iff hps).mp ?_) (ih hrest)
    rw [isSome_matchAll hps _ _ _, hitems]
    rfl

/-- The wildcard in front of a cut may take more elements. -/
theorem Fits.extend {c : Captures} {sections : List (Key × List Pattern)} {parts : List Part}
    (h : Fits c sections parts) (hne : sections ≠ []) (more : List Tree) :
    ∃ parts', Fits c sections parts' ∧ elements parts' = more ++ elements parts := by
  cases h with
  | nil => exact absurd rfl hne
  | @cons s x _ parts hx hrest =>
    refine ⟨⟨more ++ x.run, x.items⟩ :: parts, .cons hx hrest, ?_⟩
    rw [elements_cons, elements_cons, List.append_assoc]

/-- A place at which a section matches, and no other before it. -/
theorem exists_first_window {ps : List Pattern} {c : Captures} {x : Part}
    (hlength : x.items.length = ps.length) (hx : (matchAll replays ps x.items c).isSome = true)
    (after : List Tree) :
    ∃ (y : Part) (between : List Tree) (c₁ : Captures),
      x.run ++ (x.items ++ after) = y.run ++ (y.items ++ (between ++ after)) ∧
        matchAll replays ps y.items c = some c₁ ∧
        ∀ i < y.run.length,
          matchAll replays ps (((x.run ++ (x.items ++ after)).drop i).take ps.length) c = none := by
  let whole := x.run ++ (x.items ++ after)
  let window (i : Nat) : List Tree := (whole.drop i).take ps.length
  have hfound : (matchAll replays ps (window x.run.length) c).isSome = true := by
    simp only [window, whole, List.drop_left, ← hlength, List.take_left]
    exact hx
  have hsome : ∃ i, (matchAll replays ps (window i) c).isSome = true := ⟨_, hfound⟩
  let start := Nat.find hsome
  have hstart : start ≤ x.run.length := Nat.find_min' hsome hfound
  obtain ⟨c₁, hc₁⟩ := Option.isSome_iff_exists.mp (Nat.find_spec hsome)
  have hbehind : whole.drop (start + ps.length) = (x.run ++ x.items).drop (start + ps.length) ++
      after := by
    simp only [whole, ← List.append_assoc]
    rw [List.drop_append_of_le_length]
    rw [List.length_append]
    omega
  refine ⟨⟨whole.take start, window start⟩, (x.run ++ x.items).drop (start + ps.length), c₁, ?_,
    hc₁, fun i hi => ?_⟩
  · rw [← hbehind, ← List.drop_drop, List.take_append_drop, List.take_append_drop]
  · have hbefore : i < start := Nat.lt_of_lt_of_le hi (List.length_take_le _ _)
    exact Option.not_isSome_iff_eq_none.mp (Nat.find_min hsome hbefore)

/-- **Any cut can be turned into one that the search finds**: the first section goes as far to the
left as it can, and what lies between its new and its old place falls to the wildcard behind it. -/
theorem exists_placed {sections : List (Key × List Pattern)} (hne : sections ≠ [])
    (hfree : sectionsAreMetaFree sections = true) {c : Captures} {parts : List Part}
    (h : Fits c sections parts) (front : List Tree) (c' : Captures) :
    ∃ parts' e, elements parts' = elements parts ∧ Placed front sections c' parts' e := by
  induction sections generalizing front c' parts with
  | nil => exact absurd rfl hne
  | cons s rest ih =>
    obtain ⟨key, ps⟩ := s
    obtain ⟨hps, hrestFree⟩ := Bool.and_eq_true_iff.mp hfree
    cases h with
    | @cons _ x _ parts hx hrest =>
      have hlength : x.items.length = ps.length := hx.length_eq.symm
      have hhere : (matchAll replays ps x.items c').isSome = true := by
        rw [isSome_matchAll hps x.items c' c]
        exact (isSome_matchAll_iff hps).mpr hx
      by_cases hlast : rest = []
      · subst hlast
        cases hrest
        obtain ⟨c₁, hitems⟩ := Option.isSome_iff_exists.mp hhere
        exact ⟨[x], _, rfl, .cons hitems (fun h => absurd rfl h) (.nil _ _)⟩
      · obtain ⟨y, between, c₁, hwhole, hitems, hfirst⟩ :=
          exists_first_window hlength hhere (elements parts)
        obtain ⟨parts₁, hfits, hparts₁⟩ := Fits.extend hrest hlast between
        obtain ⟨parts₂, e, hparts₂, hplaced⟩ := ih hlast hrestFree hfits (front ++ y.run ++ y.items)
          (c₁.bind key (.run y.run (runSpan (front ++ elements (x :: parts)) front.length
            (front.length + y.run.length))))
        have helements : elements (y :: parts₂) = elements (x :: parts) := by
          rw [elements_cons, elements_cons, hparts₂, hparts₁, hwhole]
        refine ⟨y :: parts₂, e, helements, .cons hitems (fun _ i hi => ?_) ?_⟩
        · rw [helements, elements_cons]
          exact hfirst i hi
        · rw [helements]
          exact hplaced

/-- **The greedy search is complete without metavariables.**  A list with wildcards matches exactly
if the list can be cut, in whatever way, into a front, runs and sections so that front and sections
match element by element and nothing is left behind the last section. -/
theorem isSome_match?_runs_iff {front : List Pattern} {sections : List (Key × List Pattern)}
    (hne : sections ≠ []) (hfree : (runs front sections).isMetaFree = true) (ts : List Tree)
    (c : Captures) :
    ((runs front sections).match? (.list ts) c).isSome = true ↔
      ∃ head parts, ts = head ++ elements parts ∧ List.Forall₂ (Accepts c) front head ∧
        List.Forall₂ (fun s x => List.Forall₂ (Accepts c) s.2 x.items) sections parts := by
  obtain ⟨hfront, hsections⟩ := Bool.and_eq_true_iff.mp hfree
  constructor
  · intro hmatch
    obtain ⟨e, he⟩ := Option.isSome_iff_exists.mp hmatch
    obtain ⟨head, parts, c₀, hts, hhead, hplaced⟩ := (match?_runs_iff_placed hne).mp he
    refine ⟨head, parts, hts, (isSome_matchAll_iff hfront).mp ?_, hplaced.fits hsections c⟩
    rw [hhead]
    rfl
  · rintro ⟨head, parts, rfl, hhead, hparts⟩
    obtain ⟨c₀, hmatch⟩ := Option.isSome_iff_exists.mp ((isSome_matchAll_iff hfront).mpr hhead)
    obtain ⟨parts', e, helements, hplaced⟩ := exists_placed hne hsections hparts head c₀
    refine Option.isSome_iff_exists.mpr ⟨e, (match?_runs_iff_placed hne).mpr ?_⟩
    exact ⟨head, parts', c₀, by rw [helements], hmatch, hplaced⟩

/-- The sections are lists that end with `z`, and the given cut leaves the first of them to a
wildcard; the search takes it for the first section. -/
theorem isSome_match?_runs_iff_moved :
    let t : Tree := .list [.str "a", .str "z"]
    let p : Pattern := runs [] [(.dots ⟨2⟩, [str "z"])]
    let sections : List (Key × List Pattern) := [(.dots ⟨1⟩, [p]), (.dots ⟨6⟩, [p, str "b"])]
    let parts : List Part := [⟨[t], [t]⟩, ⟨[], [t, .str "b"]⟩]
    (sections ≠ [] ∧ (runs [] sections).isMetaFree = true) ∧
      List.Forall₂ (fun s x => List.Forall₂ (Accepts .empty) s.2 x.items) sections parts ∧
      ((runs [] sections).match? (.list (elements parts)) .empty).isSome = true := by
  intro t p sections parts
  have hne : sections ≠ [] := by decide
  have hfree : (runs [] sections).isMetaFree = true := by decide
  have ht : Accepts .empty p t := by
    unfold Accepts
    decide
  have hparts : List.Forall₂ (fun s x => List.Forall₂ (Accepts .empty) s.2 x.items)
      sections parts :=
    .cons (.cons ht .nil) (.cons (.cons ht (.cons rfl .nil)) .nil)
  exact ⟨⟨hne, hfree⟩, hparts, (isSome_match?_runs_iff hne hfree _ _).mpr ⟨[], parts, rfl,
    .nil, hparts⟩⟩

/-- With metavariables the search does not find every cut: `x` is bound to the first element and not
to the second, which the last section would need. -/
example :
    let ident (name : String) : Tree := .node .ident [.pos .none, .str name]
    let x : Pattern := metavar "x" .expression
    ((runs [] [(.dots ⟨1⟩, [x]), (.dots ⟨6⟩, [x])]).match?
      (.list [ident "a", ident "b", ident "b"]) .empty).isSome = false := by decide

end Pattern

end Graft
