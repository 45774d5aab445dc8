import Graft.Proofs.Match.Alike
import Graft.Proofs.Result
import Graft.Proofs.Tree.SameCode

/-! # Matching and building do not depend on layout

Two runs are followed side by side, over values that spell the same code but may stand anywhere.  A
match compares no place with another one, so both succeed or both fail, and their captures agree but
for places (`Captures.SameCode`, `Pattern.match?_sameCode`).  Of a place only its presence counts.
It decides which end a run reaches to, and whether a template moves its cursor; so presence is what
the bindings and the cursors of the two runs have in common, and with it templates build values that
spell the same code or fail alike (`Template.build_inStep`).
-/

namespace Graft

/-! ### Spans and bindings -/

/-- Whether the ends of two spans are there or not there alike. -/
structure Span.SameEnds (s s' : Span) : Prop where
  start : s.start.isValid = s'.start.isValid
  stop : s.stop.isValid = s'.stop.isValid

theorem Tree.SameCode.span {t u : Tree} (h : t.SameCode u) : t.span.SameEnds u.span :=
  ⟨h.isValid_start, h.isValid_stop⟩

/-- Whether two bindings agree but for places. -/
inductive Binding.SameCode : Binding → Binding → Prop where
  | metavar {v v' : Tree} {s s' : Span} (hv : v.SameCode v') (hs : s.SameEnds s') :
    SameCode (.metavar v s) (.metavar v' s')
  | run {ts ts' : List Tree} {s s' : Span} (hts : Tree.SameCodeAll ts ts') (hs : s.SameEnds s') :
    SameCode (.run ts s) (.run ts' s')
  | pos {p p' : Pos} (hp : p.isValid = p'.isValid) : SameCode (.pos p) (.pos p')
  | captured {v v' : Tree} {s s' : Span} (hv : v.SameCode v') (hs : s.SameEnds s') :
    SameCode (.captured v s) (.captured v' s')
  | span {s s' : Span} (hs : s.SameEnds s') : SameCode (.span s) (.span s')
  | name (s : String) : SameCode (.name s) (.name s)

namespace Captures

/-- Whether two captures bind the same keys, to the same code. -/
def SameCode (c c' : Captures) : Prop := ∀ k, Option.Rel Binding.SameCode (c.get? k) (c'.get? k)

namespace SameCode

variable {c c' : Captures}

theorem refl_empty : SameCode .empty .empty := fun _ => .none

theorem bind (h : SameCode c c') (k : Key) {b b' : Binding} (hb : b.SameCode b') :
    SameCode (c.bind k b) (c'.bind k b') := by
  intro k'
  rw [get?_bind, get?_bind]
  split
  · exact .some hb
  · exact h k'

theorem metavar? (h : SameCode c c') (name : String) :
    Option.Rel (fun x y => x.1.SameCode y.1 ∧ x.2.SameEnds y.2) (c.metavar? name)
    (c'.metavar? name) := by
  unfold Captures.metavar?
  generalize c.get? (.metavar name) = x, c'.get? (.metavar name) = y, h (.metavar name) = hxy
  cases hxy with
  | none => exact .none
  | some hb =>
    cases hb with
    | metavar hv hs => exact .some ⟨hv, hs⟩
    | _ => exact .none

theorem run? (h : SameCode c c') (k : Key) :
    Option.Rel (fun x y => Tree.SameCodeAll x.1 y.1 ∧ x.2.SameEnds y.2) (c.run? k) (c'.run? k) := by
  unfold Captures.run?
  generalize c.get? k = x, c'.get? k = y, h k = hxy
  cases hxy with
  | none => exact .none
  | some hb =>
    cases hb with
    | run hts hs => exact .some ⟨hts, hs⟩
    | _ => exact .none

theorem pos? (h : SameCode c c') (k : Key) :
    Option.Rel (fun p q => p.isValid = q.isValid) (c.pos? k) (c'.pos? k) := by
  unfold Captures.pos?
  generalize c.get? k = x, c'.get? k = y, h k = hxy
  cases hxy with
  | none => exact .none
  | some hb =>
    cases hb with
    | pos hp => exact .some hp
    | _ => exact .none

theorem captured? (h : SameCode c c') (k : Key) :
    Option.Rel (fun x y => x.1.SameCode y.1 ∧ x.2.SameEnds y.2) (c.captured? k)
    (c'.captured? k) := by
  unfold Captures.captured?
  generalize c.get? k = x, c'.get? k = y, h k = hxy
  cases hxy with
  | none => exact .none
  | some hb =>
    cases hb with
    | captured hv hs => exact .some ⟨hv, hs⟩
    | _ => exact .none

theorem span? (h : SameCode c c') (k : Key) :
    Option.Rel Span.SameEnds (c.span? k) (c'.span? k) := by
  unfold Captures.span?
  generalize c.get? k = x, c'.get? k = y, h k = hxy
  cases hxy with
  | none => exact .none
  | some hb =>
    cases hb with
    | span hs => exact .some hs
    | _ => exact .none

end SameCode

end Captures

/-! ### Runs and loop headers -/

/-- The span between two places that may be missing. -/
def Span.between : Option Pos → Option Pos → Span
  | some s, some e => if s ≤ e then ⟨s, e⟩ else .emptyAt s
  | some s, .none => .emptyAt s
  | .none, _ => .none

/-- Whether two places are both there. -/
def Pos.BothValid (p q : Pos) : Prop := p.isValid = true ∧ q.isValid = true

theorem Pos.bothValid_of_isValid_eq {p q : Pos} (h : p.isValid = q.isValid) :
    Option.Rel BothValid (if p.isValid then some p else .none)
    (if q.isValid then some q else .none) := by
  rw [h]
  split
  · rename_i hq
    exact .some ⟨h.trans hq, hq⟩
  · exact .none

theorem Span.between_sameEnds {s s' e e' : Option Pos} (hs : Option.Rel Pos.BothValid s s')
    (he : Option.Rel Pos.BothValid e e') : (between s e).SameEnds (between s' e') := by
  cases hs with
  | none => exact ⟨rfl, rfl⟩
  | some hs =>
    have hstart := hs.1.trans hs.2.symm
    cases he with
    | none => exact ⟨hstart, hstart⟩
    | some he =>
      -- whichever of the two ends a span takes up, it is there
      dsimp only [between]
      split <;> split
      · exact ⟨hstart, he.1.trans he.2.symm⟩
      · exact ⟨hstart, he.1.trans hs.2.symm⟩
      · exact ⟨hstart, hs.1.trans he.2.symm⟩
      · exact ⟨hstart, hstart⟩

/-- The range of a run has both ends or none. -/
theorem runSpan_sameEnds {ts us : List Tree} (h : Tree.SameCodeAll ts us) (first stop : Nat) :
    (runSpan ts first stop).SameEnds (runSpan us first stop) := by
  have hskipped := List.forall₂_drop first (List.forall₂_take stop h)
  have hprev : Option.Rel Tree.SameCode (if first = 0 then none else ts[first - 1]?)
      (if first = 0 then none else us[first - 1]?) := by
    split
    · exact .none
    · exact rel_getElem? h _
  have hhead := rel_head? hskipped
  have hlast := rel_getLast? hskipped
  have hnext := (rel_getElem? h stop).bind fun _ _ ht => Pos.bothValid_of_isValid_eq
    ht.isValid_start
  have hstart := (hprev.bind fun _ _ ht => Pos.bothValid_of_isValid_eq ht.isValid_stop).orElse
    ((hhead.bind fun _ _ ht => Pos.bothValid_of_isValid_eq ht.isValid_start).orElse hnext)
  exact Span.between_sameEnds hstart (hnext.orElse
    ((hlast.bind fun _ _ ht => Pos.bothValid_of_isValid_eq ht.isValid_stop).orElse hstart))

theorem Node.SameCode.without {m n : Node} (h : m.SameCode n) (l : Label) :
    (m.without l).SameCode (n.without l) := by
  have hget := h.get l
  unfold Node.without
  generalize m.get l = x, n.get l = y at hget
  cases hget.builtAlike with
  | list => exact h.set l (.refl _)
  | _ => exact h.set l (.refl _)

/-! ### Matching -/

namespace Pattern

open Captures

mutual

/-- Values that spell the same code are looked for alike. -/
theorem literal_eq {t u : Tree} (h : t.SameCode u) : literal t = literal u := by
  match t, u, h.builtAlike with
  | _, _, .nil | _, _, .pos _ | _, _, .str _ | _, _, .tok _ => rfl
  | _, _, .list hts => rw [literal, literal, literalAll_eq hts]
  | _, _, .node k hts => rw [literal, literal, literalFields_eq k.fields hts]

theorem literalAll_eq {ts us : List Tree} (h : Tree.SameCodeAll ts us) :
    literalAll ts = literalAll us := by
  match ts, us, h with
  | [], [], _ => rfl
  | t :: ts, u :: us, .cons hhead htail =>
    rw [literalAll, literalAll, literal_eq hhead, literalAll_eq htail]

theorem literalFields_eq (fs : List Field) {ts us : List Tree} (h : Tree.SameCodeAll ts us) :
    literalFields fs ts = literalFields fs us := by
  match fs, ts, us, h with
  | [], _, _, _ => simp [literalFields]
  | _ :: _, [], [], _ => rfl
  | f :: fs, t :: ts, u :: us, .cons hhead htail =>
    rw [literalFields, literalFields, literal_eq hhead, literalFields_eq fs htail]

end

theorem firstStart_sameCode {attempt attempt' : Nat → Option Captures}
    (h : ∀ i, Option.Rel Captures.SameCode (attempt i) (attempt' i)) (first count : Nat) :
    Option.Rel (fun x y => x.1 = y.1 ∧ x.2.SameCode y.2) (firstStart attempt first count)
      (firstStart attempt' first count) :=
  .findSome? (fun i => (h i).map fun _ _ hc => ⟨rfl, hc⟩) _

/-- Whether a comparison with bound values does not depend on layout. -/
def ReplaysCode (replay : Tree → Tree → Bool) : Prop :=
  ∀ ⦃b b' t t' : Tree⦄, b.SameCode b' → t.SameCode t' → replay b t = replay b' t'

variable {replay : Tree → Tree → Bool}

mutual

theorem matchWith_sameCode (hreplay : ReplaysCode replay) (p : Pattern) {t t' : Tree}
    {c c' : Captures} (ht : t.SameCode t') (hc : c.SameCode c') :
    Option.Rel Captures.SameCode (matchWith replay p t c) (matchWith replay p t' c') := by
  match p with
  | nil =>
    rw [matchWith, matchWith, ht.isNil]
    split
    · exact .some hc
    · exact .none
  | node k ps =>
    cases ht.builtAlike with
    | node l hts =>
      rw [matchWith, matchWith]
      split
      · exact matchAll_sameCode hreplay ps hts hc
      · exact .none
    | _ => exact .none
  | list ps =>
    cases ht.builtAlike with
    | list hts => exact matchAll_sameCode hreplay ps hts hc
    | _ => exact .none
  | runs front sections =>
    cases ht.builtAlike with
    | list hts =>
      rw [matchWith, matchWith, hts.length_eq]
      split
      · exact .none
      · exact (matchAll_sameCode hreplay front (List.forall₂_take _ hts) hc).bind
          fun _ _ hc => matchSections_sameCode hreplay sections hts _ hc
    | _ => exact .none
  | pos p =>
    cases ht.builtAlike with
    | pos hq =>
      rw [matchWith, matchWith, hq]
      split
      · exact .some (hc.bind _ (.pos hq))
      · split
        · exact .some hc
        · exact .none
    | _ => exact .none
  | anyPos =>
    cases ht.builtAlike with
    | pos _ => exact .some hc
    | _ => exact .none
  | str s =>
    cases ht.builtAlike with
    | str u =>
      rw [matchWith, matchWith]
      split
      · exact .some hc
      · exact .none
    | _ => exact .none
  | tok s =>
    cases ht.builtAlike with
    | tok u =>
      rw [matchWith, matchWith]
      split
      · exact .some hc
      · exact .none
    | _ => exact .none
  | doc p => exact .some (hc.bind _ (.captured ht ht.span))
  | any => exact .some hc
  | metavar name kind =>
    have hadmits : kind.admits t = kind.admits t' := by
      unfold MetaKind.admits
      rw [ht.kind?]
    rw [matchWith, matchWith, hadmits]
    split
    · exact .none
    · generalize c.metavar? name = x, c'.metavar? name = y, hc.metavar? name = hxy
      cases hxy with
      | none => exact .some (hc.bind _ (.metavar ht ht.span))
      | some hbound =>
        dsimp only
        rw [hreplay hbound.1 ht]
        split
        · exact .some hc
        · exact .none
  | fieldList p =>
    rw [matchWith, matchWith, ht.isNil, Tree.isKind, Tree.isKind, ht.kind?]
    split
    · exact .some (hc.bind _ (.captured ht ht.span))
    · exact .none
  | loop p body =>
    rw [matchWith, matchWith]
    generalize t.node? = x, t'.node? = y, ht.node? = hxy
    cases hxy with
    | none => exact .none
    | some hn =>
      dsimp only
      rw [(Node.sameCode_iff.mp hn).1]
      split
      · refine (matchWith_sameCode hreplay body (hn.get .body) hc).map fun _ _ hc => ?_
        exact hc.bind _ (.captured (hn.without .body)
          ⟨hn.isValid_start, (hn.get .body).isValid_start⟩)
      · exact .none

theorem matchAll_sameCode (hreplay : ReplaysCode replay) (ps : List Pattern) {ts ts' : List Tree}
    {c c' : Captures} (hts : Tree.SameCodeAll ts ts') (hc : c.SameCode c') :
    Option.Rel Captures.SameCode (matchAll replay ps ts c) (matchAll replay ps ts' c') := by
  match ps, ts, ts', hts with
  | [], [], [], _ => exact .some hc
  | [], _ :: _, _ :: _, _ => exact .none
  | _ :: _, [], [], _ => exact .none
  | p :: ps, t :: ts, t' :: ts', .cons hhead htail =>
    rw [matchAll, matchAll]
    exact (matchWith_sameCode hreplay p hhead hc).bind
      fun _ _ hc => matchAll_sameCode hreplay ps htail hc

theorem matchSections_sameCode (hreplay : ReplaysCode replay) (sections : List (Key × List Pattern))
    {ts ts' : List Tree} (hts : Tree.SameCodeAll ts ts') (cursor : Nat) {c c' : Captures}
    (hc : c.SameCode c') :
    Option.Rel Captures.SameCode (matchSections replay ts sections cursor c)
      (matchSections replay ts' sections cursor c') := by
  match sections with
  | [] => exact .some hc
  | (key, items) :: rest =>
    rw [matchSections_eq_bind, matchSections_eq_bind, hts.length_eq]
    split
    · exact .none
    · have hattempt (i : Nat) : Option.Rel Captures.SameCode
          (matchAll replay items ((ts.drop i).take items.length) c)
          (matchAll replay items ((ts'.drop i).take items.length) c') :=
        matchAll_sameCode hreplay items (List.forall₂_take _ (List.forall₂_drop i hts)) hc
      have hrun (i : Nat) : Binding.SameCode (.run ((ts.take i).drop cursor) (runSpan ts cursor i))
          (.run ((ts'.take i).drop cursor) (runSpan ts' cursor i)) :=
        .run (List.forall₂_drop _ (List.forall₂_take i hts)) (runSpan_sameEnds hts cursor i)
      -- the section is found at one and the same place of both lists
      refine .bind (R := fun x y => x.1 = y.1 ∧ x.2.SameCode y.2) ?_ fun ⟨i, d⟩ ⟨_, d'⟩ hd => ?_
      · split
        · exact firstStart_sameCode hattempt _ _
        · exact firstStart_sameCode hattempt _ _
      · obtain ⟨rfl, hd⟩ := hd
        exact matchSections_sameCode hreplay rest hts _ (hd.bind key (hrun i))

end

theorem replays_replaysCode : ReplaysCode replays := by
  intro b b' t t' hb ht
  have hnever : ReplaysCode fun _ _ => false := fun _ _ _ _ _ _ => rfl
  rw [replays, replays, literal_eq hb]
  exact (matchWith_sameCode hnever _ ht .refl_empty).isSome_eq

/-- **Matching does not depend on layout.** -/
theorem match?_sameCode (p : Pattern) {t t' : Tree} {c c' : Captures} (ht : t.SameCode t')
    (hc : c.SameCode c') : Option.Rel Captures.SameCode (p.match? t c) (p.match? t' c') :=
  matchWith_sameCode replays_replaysCode p ht hc

end Pattern

/-! ### Building -/

namespace Builder

variable {α α' β β' : Type} {R : α → α' → Prop} {S : β → β' → Prop}

/-- Whether two ways of building have the same outcome, from cursors that are there or not there
alike, and leave such cursors. -/
def InStep (R : α → α' → Prop) (b : Builder α) (b' : Builder α') : Prop :=
  ∀ d d' : Draft, d.cursor.isValid = d'.cursor.isValid →
    SameOutcome (fun x y => R x.1 y.1 ∧ x.2.cursor.isValid = y.2.cursor.isValid)
    (b.run d) (b'.run d')

theorem inStep_pure {a : α} {a' : α'} (h : R a a') : InStep R (pure a) (pure a') :=
  fun _ _ hd => .ok ⟨h, hd⟩

theorem inStep_throw (e : BuildError) : InStep R (throw e) (throw e) := fun _ _ _ => .error e

theorem InStep.bind {b : Builder α} {b' : Builder α'} {f : α → Builder β} {f' : α' → Builder β'}
    (h : InStep R b b') (hf : ∀ a a', R a a' → InStep S (f a) (f' a')) :
    InStep S (b >>= f) (b' >>= f') := by
  intro d d' hd
  rw [StateT.run_bind, StateT.run_bind]
  generalize b.run d = x, b'.run d' = y, h d d' hd = hxy
  cases hxy with
  | ok hr => exact hf _ _ hr.1 _ _ hr.2
  | error e => exact .error e

theorem inStep_spare (s s' : Span) : InStep (fun _ _ => True) (spare s) (spare s') :=
  fun _ _ hd => .ok ⟨trivial, hd⟩

theorem inStep_moveTo {p p' : Pos} (h : p.isValid = p'.isValid) :
    InStep (fun _ _ => True) (moveTo p) (moveTo p') := by
  intro d d' hd
  refine .ok ⟨trivial, ?_⟩
  dsimp only
  rw [h]
  split
  · exact h
  · exact hd

theorem inStep_require {found : Option α} {found' : Option α'} (h : Option.Rel R found found')
    (part : MissingPart) (p : Pos) : InStep R (require found part p) (require found' part p) := by
  cases h with
  | some ha => exact inStep_pure ha
  | none => exact inStep_throw _

end Builder

theorem firstMisfit_sameCode {ts us : List Tree} (h : Tree.SameCodeAll ts us) (k : Kind) :
    firstMisfit k ts = firstMisfit k us := by
  have hfind (fs : List Field) :
      ((fs.zip ts).find? fun x => !x.1.slot.accepts x.2).map (fun x => Misfit.inField x.2.kind?
        x.1.label k) =
        ((fs.zip us).find? fun x => !x.1.slot.accepts x.2).map fun x => Misfit.inField x.2.kind?
        x.1.label k := by
    induction h generalizing fs with
    | nil => simp
    | cons hhead _ ih =>
      cases fs with
      | nil => rfl
      | cons f fs =>
        simp only [List.zip_cons_cons, List.find?_cons, Slot.accepts_sameCode hhead]
        split
        · simp [hhead.kind?]
        · exact ih fs
  exact hfind k.fields

namespace Template

open Builder Captures

mutual

/-- **Building does not depend on layout.** -/
theorem build_inStep {c c' : Captures} (hc : c.SameCode c') (t : Template) :
    InStep Tree.SameCode (build c t) (build c' t) := by
  match t with
  | nil | str _ | tok _ => exact inStep_pure (.refl _)
  | pos p counterpart =>
    rw [build, build]
    dsimp only
    split
    · exact inStep_pure (.refl _)
    · intro d d' hd
      have hbound := Option.Rel.bind_left counterpart fun q => hc.pos? (.pos q)
      refine .ok ⟨Tree.BuiltAlike.sameCode (.pos ?_), hd⟩
      generalize counterpart.bind _ = x, counterpart.bind _ = y, hbound = hxy
      cases hxy with
      | some hp => exact hp
      | none => exact hd
  | node k fs =>
    rw [build, build]
    refine (buildAll_inStep hc fs).bind fun ts us h => ?_
    rw [firstMisfit_sameCode h]
    split
    · exact inStep_throw _
    · exact inStep_pure (Tree.BuiltAlike.node k h).sameCode
  | list items =>
    rw [build, build]
    exact (buildItems_inStep hc items).bind fun ts us h => inStep_pure
      (Tree.BuiltAlike.list h).sameCode
  | doc counterpart own =>
    rw [build, build]
    split
    · have hdoc := Option.Rel.bind_left counterpart fun q => hc.captured? (.doc q)
      generalize counterpart.bind _ = x, counterpart.bind _ = y, hdoc = hxy
      cases hxy with
      | some h => exact (inStep_spare _ _).bind fun _ _ _ => inStep_pure h.1
      | none => exact inStep_pure (.refl _)
    · exact build_inStep hc own
  | metavar name p =>
    rw [build, build]
    refine (inStep_require (hc.metavar? name) _ _).bind fun x y h => ?_
    exact (inStep_spare _ _).bind fun _ _ _ => inStep_pure h.1
  | fieldList dots counterpart =>
    rw [build, build]
    have hvalue := Option.Rel.bind_left counterpart fun q => hc.captured? (.fieldList q)
    refine (inStep_require hvalue _ _).bind fun x y h => ?_
    exact (inStep_spare _ _).bind fun _ _ _ => inStep_pure h.1
  | loop dots counterpart body =>
    rw [build, build]
    have hheader := Option.Rel.bind_left counterpart fun q => hc.captured? (.loopHeader q)
    refine (inStep_require hheader _ _).bind fun x y h => ?_
    refine (inStep_require h.1.node? _ _).bind fun m n hmn => ?_
    refine (inStep_spare _ _).bind fun _ _ _ => (inStep_moveTo h.2.stop).bind fun _ _ _ => ?_
    refine (build_inStep hc body).bind fun v v' hv => ?_
    rw [Tree.isKind, Tree.isKind, hv.kind?]
    split
    · exact inStep_pure (hmn.set .body hv)
    · exact inStep_throw _

theorem buildAll_inStep {c c' : Captures} (hc : c.SameCode c') (ts : List Template) :
    InStep Tree.SameCodeAll (buildAll c ts) (buildAll c' ts) := by
  match ts with
  | [] => exact inStep_pure .nil
  | t :: ts =>
    rw [buildAll, buildAll]
    refine (build_inStep hc t).bind fun v v' hv => ?_
    exact (buildAll_inStep hc ts).bind fun vs vs' hvs => inStep_pure (.cons hv hvs)

theorem buildItems_inStep {c c' : Captures} (hc : c.SameCode c') (items : List TemplateItem) :
    InStep Tree.SameCodeAll (buildItems c items) (buildItems c' items) := by
  match items with
  | [] => exact inStep_pure .nil
  | .one t :: items =>
    rw [buildItems, buildItems]
    refine (build_inStep hc t).bind fun v v' hv => ?_
    exact (buildItems_inStep hc items).bind fun vs vs' hvs => inStep_pure (.cons hv hvs)
  | .splice key dots :: items =>
    rw [buildItems, buildItems]
    have hrun := Option.Rel.bind_left key hc.run?
    refine (inStep_require hrun _ _).bind fun x y h => ?_
    refine (inStep_spare _ _).bind fun _ _ _ => (inStep_moveTo h.2.stop).bind fun _ _ _ => ?_
    exact (buildItems_inStep hc items).bind fun vs vs' hvs => inStep_pure (List.rel_append h.1 hvs)

end

end Template

end Graft
