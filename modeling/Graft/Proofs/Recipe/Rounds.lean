import Graft.Proofs.Recipe.Stretch
import Mathlib.Logic.Relation

/-! # The rounds over a container

`Recipe.rewindow` goes over the list of a container in rounds.  A round looks at the elements from
some number on, and the next one begins further to the right: behind what was built, behind a
stretch that would be built as it is, or behind the first element of one that was refused
(`Recipe.round`).  The list grows and shrinks meanwhile.  What a round can be sure of is that the
elements it looks at are the last ones of the list as it was before the first round, and that what
was built stands in front of them (`Progress.Moves`).

So a round leaves fewer elements ahead than it found, the rounds come to an end by themselves before
their number is used up, nothing that was built is looked at again, and in the end stretches of the
list that do not overlap have been replaced and all else is in its place
(`Recipe.rewindow_replaces`).
-/

namespace Graft

/-- Setting a field that holds a list. -/
theorem Node.get_set_of_ne_nil {n : Node} {l : Label} (h : n.list l ≠ []) (t : Tree) :
    (n.set l t).get l = t := by
  unfold list get at h
  cases hi : n.kind.indexOf? l with
  | none =>
    rw [hi] at h
    exact absurd rfl h
  | some i =>
    rw [hi] at h
    by_cases hlt : i < n.fields.length
    · simp [get, set, hi, hlt]
    · dsimp only at h
      rw [List.getElem?_eq_none (Nat.not_lt.mp hlt)] at h
      exact absurd rfl h

/-! ### One round -/

/-- How far the rounds over a container have come. -/
structure Progress where
  /-- The number of the element at which the next round begins. -/
  offset : Nat
  node : Node
  pass : Pass

namespace Progress

/-- The elements that no round looks at any more. -/
def done (s : Progress) (l : Label) : List Tree := (s.node.list l).take s.offset

/-- The elements that the next round looks at. -/
def ahead (s : Progress) (l : Label) : List Tree := (s.node.list l).drop s.offset

theorem done_append_ahead (s : Progress) (l : Label) : s.done l ++ s.ahead l = s.node.list l :=
  List.take_append_drop _ _

end Progress

namespace Recipe

/-- One round over a container: what the rounds come to, or how far they have come. -/
def round (r : Recipe) (l : Label) (pattern : Pattern) (base : Captures) (s : Progress) :
    (Node × Pass) ⊕ Progress :=
  let size := (s.node.list l).length
  if size ≤ s.offset then .inl (s.node, s.pass)
  else
    match matchWindow? s.node l s.offset pattern base with
    | none => .inl (s.node, s.pass)
    | some c =>
      let c := c.visible
      let head := runLength c .head
      let tail := runLength c .tail
      match r.replaceInto c s.pass.log none (some s.node) with
      | (.ok (some (.node k fs)), log) =>
        let new : Node := ⟨k, fs⟩
        let newSize := (new.list l).length
        let next := newSize - tail
        let pass := s.pass.advance c log
        if next ≤ s.offset && size ≤ newSize then .inl (new, pass) else .inr ⟨next, new, pass⟩
      | (.ok (some _), log) => .inl (s.node, { s.pass with log := log })
      | (.ok none, log) =>
        .inr ⟨max (size - tail) (s.offset + head + 1), s.node, s.pass.advance c log⟩
      | (.error e, log) =>
        let pass := s.pass.reject e log
        if pass.failure.isSome then .inl (s.node, pass)
        else .inr ⟨s.offset + head + 1, s.node, pass⟩

variable {r : Recipe} {l : Label} {pattern : Pattern} {base : Captures}

/-- **The rounds over a container are one round and those after it.** -/
theorem rewindow_succ (r : Recipe) (l : Label) (pattern : Pattern) (base : Captures) (rounds : Nat)
    (s : Progress) :
    r.rewindow l pattern base (rounds + 1) s.offset s.node s.pass =
      (r.round l pattern base s).elim id fun s' =>
        r.rewindow l pattern base rounds s'.offset s'.node s'.pass := by
  rw [rewindow, round]
  dsimp only
  by_cases hsize : (s.node.list l).length ≤ s.offset
  · rw [if_pos hsize, if_pos hsize]
    rfl
  · rw [if_neg hsize, if_neg hsize]
    cases matchWindow? s.node l s.offset pattern base with
    | none => rfl
    | some c =>
      dsimp only
      obtain ⟨e | _ | t, log⟩ := r.replaceInto c.visible s.pass.log none (some s.node)
      · dsimp only
        split <;> rfl
      · rfl
      · cases t with
        | node k fs =>
          dsimp only
          split <;> rfl
        | _ => rfl

/-- Whether one state of the rounds comes from another. -/
def Reaches (r : Recipe) (l : Label) (pattern : Pattern) (base : Captures) :
    Progress → Progress → Prop :=
  Relation.ReflTransGen fun s s' => r.round l pattern base s = .inr s'

end Recipe

/-! ### What a round does to the list -/

/-- A stretch of a list before and after. -/
inductive Portion where
  | kept (items : List Tree)
  /-- A stretch that a match cut out, and what was built for it. -/
  | replaced (c : Captures) (window items : List Tree)

namespace Portion

/-- The elements of a portion in the list as it was. -/
def before : Portion → List Tree
  | kept items => items
  | replaced _ window _ => window

/-- The elements of a portion in the list as it is. -/
def after : Portion → List Tree
  | kept items => items
  | replaced _ _ items => items

/-- Whether a portion is the work of a round: if it was replaced, the round found it between what
the match skipped, and the template built what it was replaced by, between the same. -/
def IsWorkOf (l : Label) (pattern : Pattern) (template : Template) (base : Captures)
    (s : Progress) :
    Portion → Prop
  | kept _ => True
  | replaced c window items =>
    window ≠ [] ∧ matchWindow? s.node l s.offset pattern base = some c ∧
      s.ahead l = c.skipped .head ++ window ++ c.skipped .tail ∧
      ∃ d, (template.build c.visible).run ⟨((c.visible.span? .site).getD .none).start, []⟩ =
        .ok (.list (c.skipped .head ++ items ++ c.skipped .tail), d)

end Portion

namespace Progress

/-- How one state of the rounds comes from another: some portions of what was ahead are done, and
nothing else has changed in the container. -/
structure Moves (l : Label) (s s' : Progress) (portions : List Portion) : Prop where
  node : ∃ t, s'.node = s.node.set l t
  ahead : s.ahead l = portions.flatMap Portion.before ++ s'.ahead l
  done : s'.done l = s.done l ++ portions.flatMap Portion.after

namespace Moves

variable {l : Label} {s s' s'' : Progress} {portions portions' : List Portion}

theorem refl (l : Label) (s : Progress) : s.Moves l s [] :=
  ⟨⟨_, (s.node.set_get l).symm⟩, rfl, (List.append_nil _).symm⟩

theorem trans (h : s.Moves l s' portions) (h' : s'.Moves l s'' portions') :
    s.Moves l s'' (portions ++ portions') where
  node := by
    obtain ⟨t, ht⟩ := h.node
    obtain ⟨t', ht'⟩ := h'.node
    exact ⟨t', by rw [ht', ht, Node.set_set]⟩
  ahead := by rw [h.ahead, h'.ahead, List.flatMap_append, List.append_assoc]
  done := by rw [h'.done, h.done, List.flatMap_append, List.append_assoc]

theorem kind (h : s.Moves l s' portions) : s'.node.kind = s.node.kind := by
  obtain ⟨t, ht⟩ := h.node
  rw [ht, Node.kind_set]

/-- Some elements are passed over. -/
theorem skip (l : Label) (s : Progress) (count : Nat) (pass : Pass) :
    s.Moves l ⟨s.offset + count, s.node, pass⟩ [.kept ((s.ahead l).take count)] where
  node := ⟨_, (s.node.set_get l).symm⟩
  ahead := by
    simp only [Progress.ahead, List.flatMap_cons, List.flatMap_nil, List.append_nil, Portion.before]
    rw [← List.drop_drop, List.take_append_drop]
  done := by
    simp only [Progress.done, Progress.ahead, List.flatMap_cons, List.flatMap_nil, List.append_nil,
      Portion.after]
    rw [List.take_add]

/-- A stretch is replaced. -/
theorem replace {head window tail items : List Tree} (hne : s.node.list l ≠ [])
    (hahead : s.ahead l = head ++ window ++ tail) {new : Node}
    (hnew : new = s.node.set l (.list (s.done l ++ (head ++ items ++ tail)))) {next : Nat}
    (hnext : next = (s.done l).length + head.length + items.length) (c : Captures) (pass : Pass) :
    s.Moves l ⟨next, new, pass⟩ [.kept head, .replaced c window items] := by
  have hlist : new.list l = (s.done l ++ head ++ items) ++ tail := by
    rw [hnew, Node.list, Node.get_set_of_ne_nil hne]
    simp [Tree.items]
  have hlength : next = (s.done l ++ head ++ items).length := by
    simp only [List.length_append]
    exact hnext
  refine ⟨⟨_, hnew⟩, ?_, ?_⟩
  · rw [hahead, Progress.ahead, hlist, hlength, List.drop_left]
    simp [Portion.before]
  · rw [Progress.done, hlist, hlength, List.take_left]
    simp [Portion.after]

end Moves

end Progress

namespace Recipe

/-- Whether portions are the work of rounds, from the given state on. -/
def Makes (r : Recipe) (l : Label) (pattern : Pattern) (template : Template) (base : Captures)
    (start : Progress) (portions : List Portion) : Prop :=
  ∀ p ∈ portions, ∃ s, r.Reaches l pattern base start s ∧ p.IsWorkOf l pattern template base s

/-- What a round does that is not the last: some of what is ahead, at least one element, is done by
it. -/
structure Advances (l : Label) (pattern : Pattern) (template : Template) (base : Captures)
    (s s' : Progress) (portions : List Portion) : Prop where
  moves : s.Moves l s' portions
  ne_nil : portions.flatMap Portion.before ≠ []
  work : ∀ p ∈ portions, p.IsWorkOf l pattern template base s

namespace Advances

variable {l : Label} {pattern : Pattern} {template : Template} {base : Captures} {s s' : Progress}
  {portions : List Portion}

/-- Fewer elements are ahead. -/
theorem length_ahead (h : Advances l pattern template base s s' portions) :
    (s'.ahead l).length < (s.ahead l).length := by
  have hpos := List.length_pos_iff.mpr h.ne_nil
  rw [h.moves.ahead, List.length_append]
  omega

theorem skip (hlt : s.offset < (s.node.list l).length) {count : Nat} (hpos : 0 < count)
    (pass : Pass) :
    Advances l pattern template base s ⟨s.offset + count, s.node, pass⟩
      [.kept ((s.ahead l).take count)] where
  moves := .skip l s count pass
  ne_nil := by
    rw [← List.length_pos_iff]
    simp only [List.flatMap_cons, List.flatMap_nil, List.append_nil, Portion.before, Progress.ahead,
      List.length_take, List.length_drop]
    omega
  work := List.forall_mem_singleton.mpr trivial

theorem replace (hlt : s.offset < (s.node.list l).length) {c : Captures} {window items : List Tree}
    (hwork : (Portion.replaced c window items).IsWorkOf l pattern template base s) {new : Node}
    (hnew : new = s.node.set l (.list (s.done l ++ (c.skipped .head ++ items ++ c.skipped .tail))))
    {next : Nat} (hnext : next = (s.done l).length + (c.skipped .head).length + items.length)
    (pass : Pass) :
    Advances l pattern template base s ⟨next, new, pass⟩
      [.kept (c.skipped .head), .replaced c window items] where
  moves := .replace (List.ne_nil_of_length_pos (by omega)) hwork.2.2.1 hnew hnext c pass
  ne_nil := by simp [Portion.before, hwork.1]
  work := List.forall_mem_cons.mpr ⟨trivial, List.forall_mem_singleton.mpr hwork⟩

end Advances

variable {r : Recipe} {l : Label} {pattern : Pattern} {base : Captures} {level : Level}
  {template : Template}
  (hbody : r.body = .window level pattern template) (hcuts : CutsOut pattern template base)
include hbody hcuts

/-- What is built for a match: the container with the elements that are done, and then what the
template makes of those ahead. -/
theorem exists_of_build_round {s : Progress} (hl : level.field? s.node.kind = some l)
    (hlt : s.offset < (s.node.list l).length) {c : Captures}
    (hmatch : matchWindow? s.node l s.offset pattern base = some c) {d d' : Draft} {value : Tree}
    (h : (r.build c.visible).run d = .ok (value, d')) :
    ∃ items, (template.build c.visible).run d = .ok
      (.list (c.skipped .head ++ items ++ c.skipped .tail), d') ∧
      value =
      (s.node.set l (.list (s.done l ++ (c.skipped .head ++ items ++ c.skipped .tail)))).tree := by
  have hne : s.node.list l ≠ [] := List.ne_nil_of_length_pos (by omega)
  obtain ⟨built, hbuilt, hvalue⟩ :=
    exists_of_build_container hbody (container_of_matchWindow? hmatch)
    (by rw [Node.kind_set]; exact hl) (Node.get_set_of_ne_nil hne _) h
  obtain ⟨window, -, -, hitems⟩ := hcuts hlt hmatch
  obtain ⟨items, rfl⟩ := hitems hbuilt
  exact ⟨items, hbuilt, by rw [hvalue _ rfl, Node.set_set, Progress.done]⟩

/-- **What one round does**: it is the last and leaves the container as it is, or some of what was
ahead of it is done afterwards. -/
theorem round_cases {s : Progress} (hl : level.field? s.node.kind = some l) :
    (∃ pass, r.round l pattern base s = .inl (s.node, pass)) ∨
      ∃ s' portions, r.round l pattern base s = .inr s' ∧
      Advances l pattern template base s s' portions := by
  rw [round]
  dsimp only
  by_cases hsize : (s.node.list l).length ≤ s.offset
  · rw [if_pos hsize]
    exact .inl ⟨_, rfl⟩
  · rw [if_neg hsize]
    have hlt : s.offset < (s.node.list l).length := Nat.lt_of_not_le hsize
    cases hmatch : matchWindow? s.node l s.offset pattern base with
    | none => exact .inl ⟨_, rfl⟩
    | some c =>
      obtain ⟨window, hwindow, hahead, -⟩ := hcuts hlt hmatch
      have hpos : 0 < window.length := List.length_pos_iff.mpr hwindow
      have hcut : (s.node.list l).length - s.offset =
          (c.skipped .head).length + window.length + (c.skipped .tail).length := by
        rw [← List.length_drop, hahead, List.length_append, List.length_append]
      simp only [runLength_eq, Captures.skipped_visible]
      rcases replaceInto_cases r c.visible s.pass.log none (some s.node) with
        ⟨e, he, -⟩ | ⟨value, draft, hbuilt, -, hsame | hnew⟩
      · -- refused: the first element of the stretch is passed over, with what stands before it
        rw [he]
        dsimp only
        split
        · exact .inl ⟨_, rfl⟩
        · exact .inr ⟨_, _, rfl, .skip hlt (by omega : 0 < (c.skipped .head).length + 1) _⟩
      · -- built as it is: all of the stretch is passed over
        have hnext : max ((s.node.list l).length - (c.skipped .tail).length)
            (s.offset + (c.skipped .head).length + 1) =
              s.offset + ((c.skipped .head).length + window.length) := by omega
        rw [hsame, hnext]
        exact .inr ⟨_, _, rfl, .skip hlt (by omega) _⟩
      · obtain ⟨items, hitems, rfl⟩ := exists_of_build_round hbody hcuts hl hlt hmatch hbuilt
        generalize hnode : s.node.set l
          (.list (s.done l ++ (c.skipped .head ++ items ++ c.skipped .tail))) = new at hnew
        have hdone : (s.done l).length = s.offset := List.length_take_of_le (Nat.le_of_lt hlt)
        have hnewSize : (new.list l).length =
            s.offset + (c.skipped .head).length + items.length + (c.skipped .tail).length := by
          rw [← hnode, Node.list, Node.get_set_of_ne_nil (List.ne_nil_of_length_pos (by omega))]
          simp only [Tree.items, List.length_append]
          omega
        obtain ⟨k, fs⟩ := new
        rw [hnew, Node.tree]
        dsimp only
        -- with nothing built and nothing skipped before it the list is shorter, so the rounds go on
        rw [if_neg (by simp only [Bool.and_eq_true, decide_eq_true_eq]; omega)]
        exact .inr ⟨_, _, rfl, .replace hlt ⟨hwindow, hmatch, hahead, draft, hitems⟩
          hnode.symm (by omega) _⟩

theorem exists_of_round {s s' : Progress} (hl : level.field? s.node.kind = some l)
    (h : r.round l pattern base s = .inr s') :
    ∃ portions, Advances l pattern template base s s' portions := by
  rcases round_cases hbody hcuts hl with ⟨pass, hlast⟩ | ⟨s'', portions, hnext, hadvances⟩
  · rw [h] at hlast
    cases hlast
  · rw [h] at hnext
    cases hnext
    exact ⟨portions, hadvances⟩

theorem node_of_round {s : Progress} {out : Node × Pass} (hl : level.field? s.node.kind = some l)
    (h : r.round l pattern base s = .inl out) : out.1 = s.node := by
  rcases round_cases hbody hcuts hl with ⟨pass, hlast⟩ | ⟨s'', portions, hnext, -⟩
  · rw [h] at hlast
    cases hlast
    rfl
  · rw [h] at hnext
    cases hnext

/-- **What the rounds have done so far**, whenever one of them is over. -/
theorem Reaches.exists_portions {s s' : Progress} (hl : level.field? s.node.kind = some l)
    (h : r.Reaches l pattern base s s') :
    ∃ portions, r.Makes l pattern template base s portions ∧ s.Moves l s' portions := by
  induction h with
  | refl => exact ⟨[], nofun, .refl l s⟩
  | @tail s₁ s₂ hreaches hround ih =>
    obtain ⟨portions, hwork, hmoves⟩ := ih
    obtain ⟨more, hadvances⟩ := exists_of_round hbody hcuts (by rw [hmoves.kind]; exact hl) hround
    refine ⟨portions ++ more, List.forall_mem_append.mpr ⟨hwork, fun p hp => ?_⟩,
      hmoves.trans hadvances.moves⟩
    exact ⟨s₁, hreaches, hadvances.work p hp⟩

/-- **The rounds come to an end by themselves**: as many as there are elements ahead, and one more,
are enough. -/
theorem exists_last_round {s : Progress} (hl : level.field? s.node.kind = some l) :
    ∃ last out, r.Reaches l pattern base s last ∧ r.round l pattern base last = .inl out ∧
      ∀ rounds, (s.ahead l).length < rounds →
      r.rewindow l pattern base rounds s.offset s.node s.pass = out := by
  induction hsize : (s.ahead l).length using Nat.strongRecOn generalizing s with
  | ind size ih =>
    subst hsize
    cases hround : r.round l pattern base s with
    | inl out =>
      refine ⟨s, out, .refl, hround, fun rounds hlt => ?_⟩
      obtain ⟨rounds, rfl⟩ := Nat.exists_eq_succ_of_ne_zero (Nat.ne_of_gt (Nat.zero_lt_of_lt hlt))
      rw [rewindow_succ, hround]
      rfl
    | inr s' =>
      obtain ⟨portions, hadvances⟩ := exists_of_round hbody hcuts hl hround
      have hfewer := hadvances.length_ahead
      obtain ⟨last, out, hreaches, hlast, hrounds⟩ :=
        ih _ hfewer (by rw [hadvances.moves.kind]; exact hl) rfl
      refine ⟨last, out, .head hround hreaches, hlast, fun rounds hlt => ?_⟩
      obtain ⟨rounds, rfl⟩ := Nat.exists_eq_succ_of_ne_zero (Nat.ne_of_gt (Nat.zero_lt_of_lt hlt))
      rw [rewindow_succ, hround]
      exact hrounds rounds (by omega)

omit hbody hcuts in
/-- **The rounds over a container end and replace stretches that do not overlap**, for every recipe
that was compiled, every container and whatever the header of a file binds.  A round but the last
does some of what is ahead of it and leaves fewer elements ahead.  What is ahead of any round is
the end of the list as it was, and what was built so far is in front of it.  The rounds that are
allowed are more than enough, and after the last one the list is as it was, but for stretches of it
that matches cut out, each with what the template built for it in its place. -/
theorem rewindow_replaces {text : List Char} {rs : List Recipe}
    (hrs : compilePatchFile text = .ok rs) (hr : r ∈ rs)
    (hbody : r.body = .window level pattern template) {file : Node}
    (hbase : r.matchHeader? file = some base) {n : Node} (hl : level.field? n.kind = some l)
    (pass : Pass) :
    (∀ s s', r.Reaches l pattern base ⟨0, n, pass⟩ s → r.round l pattern base s = .inr s' →
      (s'.ahead l).length < (s.ahead l).length ∧
      ∃ portions, s.Moves l s' portions ∧ ∀ p ∈ portions, p.IsWorkOf l pattern template base s) ∧
    (∀ s, r.Reaches l pattern base ⟨0, n, pass⟩ s → ∃ portions,
      r.Makes l pattern template base ⟨0, n, pass⟩ portions ∧
      n.list l = portions.flatMap Portion.before ++ s.ahead l ∧
      s.done l = portions.flatMap Portion.after) ∧
    ∃ last out, r.Reaches l pattern base ⟨0, n, pass⟩ last ∧
      r.round l pattern base last = .inl out ∧
      (∀ rounds, (n.list l).length < rounds → r.rewindow l pattern base rounds 0 n pass = out) ∧
      ∃ portions, r.Makes l pattern template base ⟨0, n, pass⟩ portions ∧
        n.list l = portions.flatMap Portion.before ∧
        out.1.list l = portions.flatMap Portion.after := by
  have hcuts : CutsOut pattern template base := cutsOut_of_mem hrs hr hbody hbase
  have hsofar {s : Progress} (h : r.Reaches l pattern base ⟨0, n, pass⟩ s) :
      level.field? s.node.kind = some l ∧
      ∃ portions, r.Makes l pattern template base ⟨0, n, pass⟩ portions ∧
        n.list l = portions.flatMap Portion.before ++ s.ahead l ∧
        s.done l = portions.flatMap Portion.after := by
    obtain ⟨portions, hmakes, hmoves⟩ := h.exists_portions hbody hcuts hl
    exact ⟨by rw [hmoves.kind]; exact hl, portions, hmakes, hmoves.ahead, hmoves.done⟩
  refine ⟨fun s s' h hround => ?_, fun s h => (hsofar h).2, ?_⟩
  · obtain ⟨portions, hadvances⟩ := exists_of_round hbody hcuts (hsofar h).1 hround
    exact ⟨hadvances.length_ahead, portions, hadvances.moves, hadvances.work⟩
  · obtain ⟨last, out, hreaches, hlast, hrounds⟩ :=
      exists_last_round hbody hcuts hl (s := ⟨0, n, pass⟩)
    obtain ⟨hl', portions, hmakes, hahead, hdone⟩ := hsofar hreaches
    -- the last round leaves the container as it is, and what is ahead then is kept
    refine ⟨last, out, hreaches, hlast, hrounds, portions ++ [.kept (last.ahead l)], ?_, ?_, ?_⟩
    · exact List.forall_mem_append.mpr ⟨hmakes, List.forall_mem_singleton.mpr
        ⟨last, hreaches, trivial⟩⟩
    · simpa [Portion.before] using hahead
    · rw [node_of_round hbody hcuts hl' hlast, ← last.done_append_ahead l, hdone]
      simp [Portion.after]

omit hbody hcuts in
/-- Here what is built could be replaced again: two calls of three statements are replaced, and the
rounds end with five statements. -/
theorem rewindow_replaces_itself :
    ∃ r file base n pattern template out portions,
      compilePatchFile "@@\n@@\n-f()\n+g()\n+f()\n".toList = .ok [r] ∧
      parseFile .code "package p\n\nfunc m() \x7b\n\tf()\n\th()\n\tf()\n\x7d\n".toList = .ok file ∧
      r.body = .window .stmts pattern template ∧ r.matchHeader? file = some base ∧
      n ∈ file.tree.nodes ∧
      n.kind = .blockStmt ∧ (n.list .list).length = 3 ∧ (out.1.list .list).length = 5 ∧
      (∀ rounds, 3 < rounds → r.rewindow .list pattern base rounds 0 n
        ⟨.empty, 0, none, none⟩ = out) ∧
      r.Makes .list pattern template base ⟨0, n, ⟨.empty, 0, none, none⟩⟩ portions ∧
      n.list .list = portions.flatMap Portion.before ∧
      out.1.list .list = portions.flatMap Portion.after := by
  have hpasses : passesWindow "@@\n@@\n-f()\n+g()\n+f()\n"
      "package p\n\nfunc m() \x7b\n\tf()\n\th()\n\tf()\n\x7d\n" (fun r file pattern base =>
        file.tree.nodes.any fun n =>
          decide (n.kind = .blockStmt) && (n.list .list).length == 3 &&
            ((r.rewindow .list pattern base 4 0 n ⟨.empty, 0, none, none⟩).1.list .list).length ==
            5) = true := by
    decide +kernel
  obtain ⟨r, file, pattern, template, base, hrs, hfile, hbody, hbase, hcheck⟩ :=
    exists_of_passesWindow hpasses
  obtain ⟨n, hn, hcheck⟩ := List.any_eq_true.mp hcheck
  simp only [Bool.and_eq_true, decide_eq_true_eq, beq_iff_eq] at hcheck
  obtain ⟨⟨hkind, hsize⟩, hsize'⟩ := hcheck
  have hl : Level.stmts.field? n.kind = some .list := by rw [hkind]; rfl
  obtain ⟨-, -, last, out, -, -, hrounds, portions, hmakes, hbefore, hafter⟩ :=
    rewindow_replaces hrs List.mem_cons_self hbody hbase hl ⟨.empty, 0, none, none⟩
  rw [hsize] at hrounds
  rw [hrounds 4 (by omega)] at hsize'
  exact ⟨r, file, base, n, pattern, template, out, portions, hrs, hfile, hbody, hbase, hn, hkind,
    hsize, hsize', hrounds, hmakes, hbefore, hafter⟩

end Recipe

end Graft
