import Graft.Match.Template

/-! # All matches of a pattern find the same things

Two captures are *alike* when they have the same keys with the same sorts of bindings, whatever
these are bound to.  Matching keeps captures alike: which keys a successful match binds is fixed by
the pattern, and the values it compares only decide whether it succeeds (`Pattern.matchWith_alike`).
What a template asks of its captures is fixed as well.  So if it has once been built, no match of
the pattern lacks anything it asks for (`Template.build_complete`).
-/

namespace Graft

/-- What a binding can be asked for.  Of the values taken over as they are, loop headers have to be
nodes. -/
inductive Offer where
  | metavar
  | run
  | pos
  | captured
  | header
  | span
  | name
  deriving DecidableEq

/-- What a binding of a key can be asked for. -/
def Binding.offer (k : Key) : Binding → Offer
  | .metavar _ _ => .metavar
  | .run _ _ => .run
  | .pos _ => .pos
  | .captured t _ =>
    match k with
    | .loopHeader _ => if t.node?.isSome then .header else .captured
    | _ => .captured
  | .span _ => .span
  | .name _ => .name

namespace Captures

/-- What a key can be asked for. -/
def offer? (c : Captures) (k : Key) : Option Offer := (c.get? k).map (Binding.offer k)

/-- Whether two captures can be asked for the same things. -/
def Alike (c c' : Captures) : Prop := ∀ k, c.offer? k = c'.offer? k

variable {c c' : Captures}

theorem get?_bind (c : Captures) (k k' : Key) (b : Binding) :
    (c.bind k b).get? k' = if k = k' then some b else c.get? k' := by
  by_cases h : k = k'
  · simp [get?, bind, h]
  · simp [get?, bind, h]

/-- Bindings that newer ones shadow are never found. -/
theorem get?_visible (c : Captures) (k : Key) : c.visible.get? k = c.get? k := by
  have hfind (es : List (Key × Binding)) :
      (visibleEntries es).find? (·.1 == k) = es.find? (·.1 == k) := by
    induction es with
    | nil => rfl
    | cons e es ih =>
      rw [visibleEntries, List.find?_cons, List.find?_cons]
      by_cases he : e.1 = k
      · simp [he]
      · have hkeep (a : Key × Binding) :
            decide ((a.1 != e.1) = true ∧ (a.1 == k) = true) = (a.1 == k) := by
          by_cases ha : a.1 = k
          · simp [ha, Ne.symm he]
          · simp [ha]
        simp only [beq_eq_false_iff_ne.mpr he, List.find?_filter, hkeep]
        exact ih
  rw [get?, get?, visible, hfind]

namespace Alike

theorem refl (c : Captures) : Alike c c := fun _ => rfl

theorem bind (h : Alike c c') {k : Key} {b b' : Binding} (hb : b.offer k = b'.offer k) :
    Alike (c.bind k b) (c'.bind k b') := by
  intro k'
  rw [offer?, offer?, get?_bind, get?_bind]
  by_cases hk : k = k'
  · subst hk
    simp [hb]
  · simp only [if_neg hk]
    exact h k'

theorem visible (h : Alike c c') : Alike c.visible c'.visible := by
  intro k
  rw [offer?, offer?, get?_visible, get?_visible]
  exact h k

end Alike

/-! ### Asking captures -/

theorem metavar?_isSome (c : Captures) (name : String) :
    (c.metavar? name).isSome = (c.offer? (.metavar name) == some .metavar) := by
  unfold metavar? offer?
  cases c.get? (.metavar name) with
  | none => rfl
  | some b => cases b <;> rfl

theorem run?_isSome (c : Captures) (k : Key) : (c.run? k).isSome = (c.offer? k == some .run) := by
  unfold run? offer?
  cases c.get? k with
  | none => rfl
  | some b =>
    cases b with
    | captured t s => cases k <;> cases t <;> rfl
    | _ => rfl

theorem captured?_fieldList_isSome (c : Captures) (p : Pos) :
    (c.captured? (.fieldList p)).isSome = (c.offer? (.fieldList p) == some .captured) := by
  unfold captured? offer?
  cases c.get? (.fieldList p) with
  | none => rfl
  | some b => cases b <;> rfl

theorem captured?_loopHeader_isSome (c : Captures) (p : Pos) :
    ((c.captured? (.loopHeader p)).bind (·.1.node?)).isSome =
      (c.offer? (.loopHeader p) == some .header) := by
  unfold captured? offer?
  cases c.get? (.loopHeader p) with
  | none => rfl
  | some b =>
    cases b with
    | captured t s => cases t <;> rfl
    | _ => rfl

namespace Alike

theorem metavar? (h : Alike c c') {name : String} {v : Tree × Span}
    (hv : c.metavar? name = some v) :
    ∃ v', c'.metavar? name = some v' := by
  rw [← Option.isSome_iff_exists, metavar?_isSome, ← h, ← metavar?_isSome, hv]
  rfl

theorem run? (h : Alike c c') {k : Key} {v : List Tree × Span} (hv : c.run? k = some v) :
    ∃ v', c'.run? k = some v' := by
  rw [← Option.isSome_iff_exists, run?_isSome, ← h, ← run?_isSome, hv]
  rfl

theorem fieldList? (h : Alike c c') {p : Pos} {v : Tree × Span}
    (hv : c.captured? (.fieldList p) = some v) : ∃ v', c'.captured? (.fieldList p) = some v' := by
  rw [← Option.isSome_iff_exists, captured?_fieldList_isSome, ← h, ← captured?_fieldList_isSome, hv]
  rfl

theorem loopHeader? (h : Alike c c') {p : Pos} {header : Tree} {span : Span} {n : Node}
    (hv : c.captured? (.loopHeader p) = some (header, span)) (hn : header.node? = some n) :
    ∃ header' span' n', c'.captured? (.loopHeader p) = some (header', span') ∧
      header'.node? = some n' := by
  have hsome : ((c'.captured? (.loopHeader p)).bind (·.1.node?)).isSome = true := by
    rw [captured?_loopHeader_isSome, ← h, ← captured?_loopHeader_isSome, hv, Option.bind_some, hn]
    rfl
  obtain ⟨n', hn'⟩ := Option.isSome_iff_exists.mp hsome
  obtain ⟨⟨header', span'⟩, hv', hn'⟩ := Option.bind_eq_some_iff.mp hn'
  exact ⟨header', span', n', hv', hn'⟩

end Alike

end Captures

/-! ### Matching -/

namespace Pattern

open Captures

variable {replay : Tree → Tree → Bool}

theorem attempt_of_firstStart {attempt : Nat → Option Captures} {first count i : Nat} {c : Captures}
    (h : firstStart attempt first count = some (i, c)) : attempt i = some c := by
  obtain ⟨j, -, hj⟩ := List.exists_of_findSome?_eq_some h
  obtain ⟨c', hc', heq⟩ := Option.map_eq_some_iff.mp hj
  cases heq
  exact hc'

/-- Whether a pattern binds nothing. -/
def isPlain : Pattern → Bool
  | nil | anyPos | str _ | tok _ | any => true
  | _ => false

theorem matchWith_plain {p : Pattern} {t : Tree} {c e : Captures} (hp : p.isPlain = true)
    (h : matchWith replay p t c = some e) : c = e := by
  cases p with
  | nil =>
    simp only [matchWith, Option.ite_none_right_eq_some, Option.some.injEq] at h
    exact h.2
  | anyPos =>
    cases t with
    | pos q => exact Option.some.inj h
    | _ => cases h
  | str s =>
    cases t with
    | str u =>
      simp only [matchWith, Option.ite_none_right_eq_some, Option.some.injEq] at h
      exact h.2
    | _ => cases h
  | tok s =>
    cases t with
    | tok u =>
      simp only [matchWith, Option.ite_none_right_eq_some, Option.some.injEq] at h
      exact h.2
    | _ => cases h
  | any => exact Option.some.inj h
  | _ => cases hp

theorem matchWith_pos {p : Pos} {t : Tree} {c e : Captures}
    (h : matchWith replay (pos p) t c = some e) :
    p.isValid = true ∧ (∃ q, c.bind (.pos p) (.pos q) = e) ∨ p.isValid = false ∧ c = e := by
  cases t with
  | pos q =>
    rw [matchWith] at h
    split at h
    · rename_i hpq
      rw [Bool.and_eq_true] at hpq
      exact .inl ⟨hpq.1, q, Option.some.inj h⟩
    · split at h
      · rename_i hpq
        rw [Bool.and_eq_true, Bool.not_eq_true'] at hpq
        exact .inr ⟨hpq.1, Option.some.inj h⟩
      · cases h
  | _ => cases h

theorem matchWith_metavar {name : String} {kind : MetaKind} {t : Tree} {c e : Captures}
    (h : matchWith replay (metavar name kind) t c = some e) :
    kind.admits t = true ∧ ((c.metavar? name).isSome = true ∧ c = e ∨
      (c.metavar? name).isSome = false ∧ c.bind (.metavar name) (.metavar t t.span) = e) := by
  rw [matchWith] at h
  split at h
  · cases h
  · rename_i hadmits
    refine ⟨by simpa using hadmits, ?_⟩
    split at h
    · rename_i hm
      simp only [Option.ite_none_right_eq_some, Option.some.injEq] at h
      exact .inl ⟨by rw [hm]; rfl, h.2⟩
    · rename_i hm
      exact .inr ⟨by rw [hm]; rfl, Option.some.inj h⟩

theorem matchWith_loop {p : Pos} {body : Pattern} {t : Tree} {c e : Captures}
    (h : matchWith replay (loop p body) t c = some e) :
    ∃ n c₁ s, t.node? = some n ∧ (n.kind = .forStmt ∨ n.kind = .rangeStmt) ∧
      matchWith replay body (n.get .body) c = some c₁ ∧
      c₁.bind (.loopHeader p) (.captured (n.without .body) s) = e := by
  rw [matchWith] at h
  split at h
  · rename_i n hn
    simp only [Option.ite_none_right_eq_some] at h
    obtain ⟨c₁, h₁, heq⟩ := Option.map_eq_some_iff.mp h.2
    exact ⟨n, c₁, _, hn, by simpa using h.1, h₁, heq⟩
  · cases h

/-- Matching a section, as finding its place and then going on behind it. -/
theorem matchSections_eq_bind (replay : Tree → Tree → Bool) (ts : List Tree) (key : Key)
    (items : List Pattern) (rest : List (Key × List Pattern)) (cursor : Nat) (c : Captures) :
    matchSections replay ts ((key, items) :: rest) cursor c =
      if ts.length < cursor + items.length then none
      else
        let attempt (start : Nat) := matchAll replay items ((ts.drop start).take items.length) c
        let last := ts.length - items.length
        (if rest.isEmpty then firstStart attempt last 1
          else firstStart attempt cursor (last - cursor + 1)).bind fun x =>
          matchSections replay ts rest (x.1 + items.length)
            (x.2.bind key (.run ((ts.take x.1).drop cursor) (runSpan ts cursor x.1))) := by
  rw [matchSections]
  split
  · rfl
  · dsimp only
    split <;> rename_i hfound
    · rw [hfound, Option.bind_none]
    · rw [hfound, Option.bind_some]

theorem matchSections_cons {ts : List Tree} {key : Key} {items : List Pattern}
    {rest : List (Key × List Pattern)} {cursor : Nat} {c e : Captures}
    (h : matchSections replay ts ((key, items) :: rest) cursor c = some e) :
    ∃ us vs s cursor' c₁, us ⊆ ts ∧ vs ⊆ ts ∧ matchAll replay items us c = some c₁ ∧
      matchSections replay ts rest cursor' (c₁.bind key (.run vs s)) = some e := by
  rw [matchSections] at h
  split at h
  · cases h
  · dsimp only at h
    split at h
    · cases h
    · rename_i i c₁ hfound
      have hdrop : (ts.drop i).take items.length ⊆ ts :=
        ((List.take_sublist _ _).trans (List.drop_sublist _ _)).subset
      have hrun : (ts.take i).drop cursor ⊆ ts :=
        ((List.drop_sublist _ _).trans (List.take_sublist _ _)).subset
      refine ⟨(ts.drop i).take items.length, _, _, _, c₁, hdrop, hrun, ?_, h⟩
      split at hfound
      · exact attempt_of_firstStart hfound
      · exact attempt_of_firstStart hfound

mutual

/-- **Matches of one pattern bind alike.** -/
theorem matchWith_alike (p : Pattern) {t t' : Tree} {c c' e e' : Captures} (hc : Alike c c')
    (h : matchWith replay p t c = some e) (h' : matchWith replay p t' c' = some e') :
    Alike e e' := by
  match p with
  | nil | anyPos | str _ | tok _ | any =>
    obtain rfl := matchWith_plain rfl h
    obtain rfl := matchWith_plain rfl h'
    exact hc
  | node k ps =>
    cases t with
    | node l ts =>
      cases t' with
      | node l' ts' =>
        simp only [matchWith, Option.ite_none_right_eq_some] at h h'
        exact matchAll_alike ps hc h.2 h'.2
      | _ => cases h'
    | _ => cases h
  | list ps =>
    cases t with
    | list ts =>
      cases t' with
      | list ts' => exact matchAll_alike ps hc h h'
      | _ => cases h'
    | _ => cases h
  | runs front sections =>
    cases t with
    | list ts =>
      cases t' with
      | list ts' =>
        simp only [matchWith, Option.ite_none_left_eq_some] at h h'
        obtain ⟨e₁, h₁, h₂⟩ := Option.bind_eq_some_iff.mp h.2
        obtain ⟨e₁', h₁', h₂'⟩ := Option.bind_eq_some_iff.mp h'.2
        exact matchSections_alike sections (matchAll_alike front hc h₁ h₁') h₂ h₂'
      | _ => cases h'
    | _ => cases h
  | pos p =>
    -- whether the place is bound is up to the pattern alone
    rcases matchWith_pos h with ⟨hp, q, rfl⟩ | ⟨hp, rfl⟩
    · rcases matchWith_pos h' with ⟨-, q', rfl⟩ | ⟨hp', -⟩
      · exact hc.bind rfl
      · rw [hp] at hp'
        cases hp'
    · rcases matchWith_pos h' with ⟨hp', -⟩ | ⟨-, rfl⟩
      · rw [hp] at hp'
        cases hp'
      · exact hc
  | doc p =>
    cases h
    cases h'
    exact hc.bind rfl
  | metavar name kind =>
    -- a name is bound before both matches or before neither: both compare with it, or both bind it
    have hsame : (c.metavar? name).isSome = (c'.metavar? name).isSome := by
      rw [metavar?_isSome, metavar?_isSome, hc]
    rcases (matchWith_metavar h).2 with ⟨hm, rfl⟩ | ⟨hm, rfl⟩
    · rcases (matchWith_metavar h').2 with ⟨-, rfl⟩ | ⟨hm', -⟩
      · exact hc
      · rw [hsame, hm'] at hm
        cases hm
    · rcases (matchWith_metavar h').2 with ⟨hm', -⟩ | ⟨-, rfl⟩
      · rw [hsame, hm'] at hm
        cases hm
      · exact hc.bind rfl
  | fieldList p =>
    simp only [matchWith, Option.ite_none_right_eq_some, Option.some.injEq] at h h'
    rw [← h.2, ← h'.2]
    exact hc.bind rfl
  | loop p body =>
    obtain ⟨n, c₁, s, -, -, h₁, rfl⟩ := matchWith_loop h
    obtain ⟨n', c₁', s', -, -, h₁', rfl⟩ := matchWith_loop h'
    exact (matchWith_alike body hc h₁ h₁').bind rfl

theorem matchAll_alike (ps : List Pattern) {ts ts' : List Tree} {c c' e e' : Captures}
    (hc : Alike c c') (h : matchAll replay ps ts c = some e)
    (h' : matchAll replay ps ts' c' = some e') : Alike e e' := by
  match ps, ts, ts' with
  | [], [], [] =>
    cases h
    cases h'
    exact hc
  | p :: ps, t :: ts, t' :: ts' =>
    obtain ⟨e₁, h₁, h₂⟩ := Option.bind_eq_some_iff.mp h
    obtain ⟨e₁', h₁', h₂'⟩ := Option.bind_eq_some_iff.mp h'
    exact matchAll_alike ps (matchWith_alike p hc h₁ h₁') h₂ h₂'

theorem matchSections_alike (sections : List (Key × List Pattern)) {ts ts' : List Tree}
    {cursor cursor' : Nat} {c c' e e' : Captures} (hc : Alike c c')
    (h : matchSections replay ts sections cursor c = some e)
    (h' : matchSections replay ts' sections cursor' c' = some e') : Alike e e' := by
  match sections with
  | [] =>
    cases h
    cases h'
    exact hc
  | (key, items) :: rest =>
    obtain ⟨us, vs, s, i, c₁, -, -, h₁, h₂⟩ := matchSections_cons h
    obtain ⟨us', vs', s', i', c₁', -, -, h₁', h₂'⟩ := matchSections_cons h'
    have hitems : Alike c₁ c₁' := matchAll_alike items hc h₁ h₁'
    have hrun : Alike (c₁.bind key (.run vs s)) (c₁'.bind key (.run vs' s')) := hitems.bind rfl
    exact matchSections_alike rest hrun h₂ h₂'

end

end Pattern

/-! ### Building -/

namespace Builder

variable {α β : Type}

/-- Whether building lacks nothing that it asks for; it may still fail because a value does not
fit. -/
def Complete (b : Builder α) : Prop := ∀ d part p, b.run d ≠ .error (.missing part p)

/-- Whether building succeeds somewhere. -/
def Succeeds (b : Builder α) : Prop := ∃ d x, b.run d = .ok x

theorem Complete.bind {b : Builder α} {f : α → Builder β} (hb : b.Complete)
    (hf : ∀ a, (f a).Complete) : (b >>= f).Complete := by
  intro d part p h
  rw [StateT.run_bind] at h
  cases hr : b.run d with
  | error e =>
    rw [hr] at h
    cases h
    exact hb d part p hr
  | ok x =>
    rw [hr] at h
    exact hf x.1 x.2 part p h

theorem complete_pure (a : α) : (pure a : Builder α).Complete := nofun

theorem complete_misfit (m : Misfit) : (throw (.misfit m) : Builder α).Complete := nofun

theorem complete_spare (s : Span) : (spare s).Complete := nofun

theorem complete_moveTo (p : Pos) : (moveTo p).Complete := nofun

theorem complete_ite {q : Prop} [Decidable q] {b b' : Builder α} (hb : b.Complete)
    (hb' : b'.Complete) : (if q then b else b').Complete := by
  split
  · exact hb
  · exact hb'

theorem complete_require {found : Option α} {part : MissingPart} {p : Pos} {f : α → Builder β}
    (h : ∃ a, found = some a ∧ (f a).Complete) : (require found part p >>= f).Complete := by
  obtain ⟨a, rfl, hf⟩ := h
  exact hf

theorem exists_of_run_bind {b : Builder α} {f : α → Builder β} {d : Draft} {x : β × Draft}
    (h : (b >>= f).run d = .ok x) : ∃ a d', b.run d = .ok (a, d') ∧ (f a).run d' = .ok x := by
  rw [StateT.run_bind] at h
  cases hr : b.run d with
  | error e =>
    rw [hr] at h
    cases h
  | ok y =>
    rw [hr] at h
    exact ⟨y.1, y.2, rfl, h⟩

theorem eq_of_require {found : Option α} {part : MissingPart} {p : Pos} {d d' : Draft} {a : α}
    (h : (require found part p).run d = .ok (a, d')) : found = some a := by
  cases found with
  | none => cases h
  | some b =>
    cases h
    rfl

theorem Succeeds.of_bind {b : Builder α} {f : α → Builder β} (h : (b >>= f).Succeeds) :
    b.Succeeds ∧ ∃ a, (f a).Succeeds := by
  obtain ⟨d, x, h⟩ := h
  obtain ⟨a, d', hb, hf⟩ := exists_of_run_bind h
  exact ⟨⟨d, _, hb⟩, a, d', x, hf⟩

theorem Succeeds.of_require {found : Option α} {part : MissingPart} {p : Pos} {f : α → Builder β}
    (h : (require found part p >>= f).Succeeds) : ∃ a, found = some a ∧ (f a).Succeeds := by
  cases found with
  | none =>
    obtain ⟨d, x, h⟩ := h
    cases h
  | some a => exact ⟨a, rfl, h⟩

end Builder

namespace Template

open Builder Captures

mutual

/-- **What has once been built lacks nothing**, wherever its pattern matches. -/
theorem build_complete {c c' : Captures} (hc : Alike c c') (t : Template)
    (h : (build c t).Succeeds) : (build c' t).Complete := by
  match t with
  | nil => exact complete_pure _
  | str s => exact complete_pure _
  | tok s => exact complete_pure _
  | pos p counterpart =>
    rw [build]
    dsimp only
    split
    · exact complete_pure _
    · exact nofun
  | node k fs =>
    rw [build] at h ⊢
    refine (buildAll_complete hc fs h.of_bind.1).bind (fun fields => ?_)
    split
    · exact complete_misfit _
    · exact complete_pure _
  | list items =>
    rw [build] at h ⊢
    exact (buildItems_complete hc items h.of_bind.1).bind (fun _ => complete_pure _)
  | doc counterpart own =>
    rw [build] at h ⊢
    split
    · split
      · exact (complete_spare _).bind (fun _ => complete_pure _)
      · exact complete_pure _
    · rename_i hown
      rw [if_neg hown] at h
      exact build_complete hc own h
  | metavar name p =>
    rw [build] at h ⊢
    obtain ⟨v, hv, -⟩ := h.of_require
    obtain ⟨v', hv'⟩ := hc.metavar? hv
    exact complete_require ⟨v', hv', (complete_spare _).bind (fun _ => complete_pure _)⟩
  | fieldList dots counterpart =>
    rw [build] at h ⊢
    obtain ⟨v, hv, -⟩ := h.of_require
    obtain ⟨q, rfl, hv⟩ := Option.bind_eq_some_iff.mp hv
    obtain ⟨v', hv'⟩ := hc.fieldList? hv
    exact complete_require ⟨v', hv', (complete_spare _).bind (fun _ => complete_pure _)⟩
  | loop dots counterpart body =>
    rw [build] at h ⊢
    obtain ⟨⟨header, span⟩, hv, h₁⟩ := h.of_require
    obtain ⟨n, hn, h₂⟩ := h₁.of_require
    obtain ⟨-, -, h₃⟩ := h₂.of_bind
    obtain ⟨-, -, h₄⟩ := h₃.of_bind
    obtain ⟨q, rfl, hv⟩ := Option.bind_eq_some_iff.mp hv
    -- the header must be bound and be a node, and alike captures have both in common
    obtain ⟨header', span', n', hv', hn'⟩ := hc.loopHeader? hv hn
    refine complete_require ⟨(header', span'), hv', complete_require ⟨n', hn', ?_⟩⟩
    refine (complete_spare _).bind (fun _ => (complete_moveTo _).bind (fun _ => ?_))
    refine (build_complete hc body h₄.of_bind.1).bind (fun value => ?_)
    split
    · exact complete_pure _
    · exact complete_misfit _

theorem buildAll_complete {c c' : Captures} (hc : Alike c c') (ts : List Template)
    (h : (buildAll c ts).Succeeds) : (buildAll c' ts).Complete := by
  match ts with
  | [] => exact complete_pure _
  | t :: ts =>
    rw [buildAll] at h ⊢
    obtain ⟨hhead, a, htail⟩ := h.of_bind
    exact (build_complete hc t hhead).bind
      (fun _ => (buildAll_complete hc ts htail.of_bind.1).bind (fun _ => complete_pure _))

theorem buildItems_complete {c c' : Captures} (hc : Alike c c') (items : List TemplateItem)
    (h : (buildItems c items).Succeeds) : (buildItems c' items).Complete := by
  match items with
  | [] => exact complete_pure _
  | .one t :: items =>
    rw [buildItems] at h ⊢
    obtain ⟨hhead, a, htail⟩ := h.of_bind
    exact (build_complete hc t hhead).bind
      (fun _ => (buildItems_complete hc items htail.of_bind.1).bind (fun _ => complete_pure _))
  | .splice key dots :: items =>
    rw [buildItems] at h ⊢
    obtain ⟨v, hv, h₁⟩ := h.of_require
    obtain ⟨-, -, h₂⟩ := h₁.of_bind
    obtain ⟨-, -, h₃⟩ := h₂.of_bind
    obtain ⟨k, rfl, hv⟩ := Option.bind_eq_some_iff.mp hv
    obtain ⟨v', hv'⟩ := hc.run? hv
    refine complete_require ⟨v', hv', ?_⟩
    refine (complete_spare _).bind (fun _ => (complete_moveTo _).bind (fun _ => ?_))
    exact (buildItems_complete hc items h₃.of_bind.1).bind (fun _ => complete_pure _)

end

end Template

end Graft
