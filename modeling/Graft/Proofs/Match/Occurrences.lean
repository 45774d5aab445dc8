import Graft.Proofs.Match.Literal
import Graft.Proofs.Match.Mirror

/-! # What stands for a metavariable

A match meets a metavariable once for each of its occurrences in the pattern
(`Pattern.occurrences`).  The first of the values met is bound, and matching goes on from there:
every later one is compared with it, and nothing a pattern files under another key hides the
binding.  So all that is met under a name has the shape of the value bound in the end
(`Pattern.match?_accounts`), and putting this value in place of each occurrence leaves the shape of
the matched value as it was (`Pattern.refill_sameShape`).

The one thing that could hide a binding is a run filed under a metavariable.  Patterns made of trees
file runs under wildcards and around windows only (`Pattern.runKeys`, `Key.isRun`).
-/

namespace Graft

namespace Pattern

/-! ### Occurrences -/

/-- Where the section in front of `rest` is found from the element with number `cursor` on, and what
is bound then. -/
def place? (ts : List Tree) (items : List Pattern) (rest : List (Key × List Pattern)) (cursor : Nat)
    (c : Captures) : Option (Nat × Captures) :=
  if ts.length < cursor + items.length then none
  else
    let attempt (start : Nat) := matchAll replays items ((ts.drop start).take items.length) c
    let last := ts.length - items.length
    if rest.isEmpty then firstStart attempt last 1 else firstStart attempt cursor
      (last - cursor + 1)

mutual

/-- The values that a match of a pattern meets at its metavariables, in the order in which it meets
them. -/
def occurrences : Pattern → Tree → Captures → List (String × Tree)
  | node _ ps, .node _ ts, c => occurrencesAll ps ts c
  | list ps, .list ts, c => occurrencesAll ps ts c
  | runs front sections, .list ts, c =>
    let items := ts.take front.length
    occurrencesAll front items c ++
      (matchAll replays front items c).elim [] (occurrencesIn ts sections front.length)
  | metavar name _, t, _ => [(name, t)]
  | loop _ body, t, c => t.node?.elim [] fun n => occurrences body (n.get .body) c
  | _, _, _ => []

/-- The values that matches of some patterns meet at their metavariables. -/
def occurrencesAll : List Pattern → List Tree → Captures → List (String × Tree)
  | p :: ps, t :: ts, c =>
    occurrences p t c ++ (matchWith replays p t c).elim [] (occurrencesAll ps ts)
  | _, _, _ => []

/-- The values that a match of sections meets at their metavariables. -/
def occurrencesIn (ts : List Tree) :
    List (Key × List Pattern) → Nat → Captures → List (String × Tree)
  | [], _, _ => []
  | (key, items) :: rest, cursor, c =>
    (place? ts items rest cursor c).elim [] fun (start, c') =>
      occurrencesAll items ((ts.drop start).take items.length) c ++
        occurrencesIn ts rest (start + items.length)
          (c'.bind key (.run ((ts.take start).drop cursor) (runSpan ts cursor start)))

end

mutual

/-- A value with what a match of a pattern meets at its metavariables changed by `f`. -/
def refill (f : String → Tree → Tree) : Pattern → Tree → Captures → Tree
  | node _ ps, .node k ts, c => .node k (refillAll f ps ts c)
  | list ps, .list ts, c => .list (refillAll f ps ts c)
  | runs front sections, .list ts, c =>
    let items := ts.take front.length
    .list (refillAll f front items c ++
      (matchAll replays front items c).elim (ts.drop front.length)
        (refillIn f ts sections front.length))
  | metavar name _, t, _ => f name t
  | loop _ body, t, c => t.node?.elim t fun n => n.set .body (refill f body (n.get .body) c)
  | _, t, _ => t

/-- A list of values with what matches of some patterns meet at their metavariables changed by
`f`. -/
def refillAll (f : String → Tree → Tree) : List Pattern → List Tree → Captures → List Tree
  | p :: ps, t :: ts, c => refill f p t c :: (matchWith replays p t c).elim ts (refillAll f ps ts)
  | _, ts, _ => ts

/-- The elements of a list from number `cursor` on, with what a match of sections meets at their
metavariables changed by `f`. -/
def refillIn (f : String → Tree → Tree) (ts : List Tree) :
    List (Key × List Pattern) → Nat → Captures → List Tree
  | [], cursor, _ => ts.drop cursor
  | (key, items) :: rest, cursor, c =>
    (place? ts items rest cursor c).elim (ts.drop cursor) fun (start, c') =>
      (ts.take start).drop cursor ++ refillAll f items ((ts.drop start).take items.length) c ++
        refillIn f ts rest (start + items.length)
          (c'.bind key (.run ((ts.take start).drop cursor) (runSpan ts cursor start)))

end

theorem matchSections_eq_place? (ts : List Tree) (key : Key) (items : List Pattern)
    (rest : List (Key × List Pattern)) (cursor : Nat) (c : Captures) :
    matchSections replays ts ((key, items) :: rest) cursor c =
      (place? ts items rest cursor c).bind fun x =>
        matchSections replays ts rest (x.1 + items.length)
          (x.2.bind key (.run ((ts.take x.1).drop cursor) (runSpan ts cursor x.1))) := by
  rw [matchSections_eq_bind, place?]
  split <;> rfl

theorem matchAll_of_place? {ts : List Tree} {items : List Pattern}
    {rest : List (Key × List Pattern)} {cursor start : Nat} {c e : Captures}
    (h : place? ts items rest cursor c = some (start, e)) :
    matchAll replays items ((ts.drop start).take items.length) c = some e := by
  unfold place? at h
  split at h
  · cases h
  · dsimp only at h
    split at h <;> exact attempt_of_firstStart h

theorem range_of_place? {ts : List Tree} {items : List Pattern} {rest : List (Key × List Pattern)}
    {cursor start : Nat} {c e : Captures} (h : place? ts items rest cursor c = some (start, e)) :
    cursor ≤ start ∧ start + items.length ≤ ts.length := by
  unfold place? at h
  split at h
  · cases h
  · dsimp only at h
    split at h <;> have hrange := range_of_firstStart h <;> omega

/-! ### The keys of runs -/

mutual

/-- The keys under which a match of a pattern files runs. -/
def runKeys : Pattern → List Key
  | node _ ps | list ps => runKeysAll ps
  | runs front sections => runKeysAll front ++ runKeysIn sections
  | loop _ body => runKeys body
  | _ => []

/-- The keys under which matches of some patterns file runs. -/
def runKeysAll : List Pattern → List Key
  | [] => []
  | p :: ps => runKeys p ++ runKeysAll ps

/-- The keys under which a match of sections files runs. -/
def runKeysIn : List (Key × List Pattern) → List Key
  | [] => []
  | (key, items) :: rest => key :: (runKeysAll items ++ runKeysIn rest)

end

end Pattern

/-- Whether a key is for a run of list elements. -/
def Key.isRun : Key → Bool
  | dots _ | head | tail => true
  | _ => false

/-- The metavariable a key is for. -/
def Key.metavarName? : Key → Option String
  | metavar name => some name
  | _ => none

theorem Key.metavarName?_of_isRun {k : Key} (h : k.isRun = true) : k.metavarName? = none := by
  cases k with
  | dots _ | head | tail => rfl
  | _ => cases h

/-- Whether a key is for the run of a wildcard. -/
def Key.isDots : Key → Bool
  | dots _ => true
  | _ => false

theorem Key.isRun_of_isDots {k : Key} (h : k.isDots = true) : k.isRun = true := by
  cases k with
  | dots _ => rfl
  | _ => cases h

/-- Whether a key is for something around the code that a pattern is about. -/
def Key.isOutside : Key → Bool
  | container | head | tail | site | importName _ => true
  | _ => false

namespace Pattern

mutual

/-- What is around the code is bound as a run or not at all. -/
theorem mem_runKeys_of_mem_keys {k : Key} (hk : k.isOutside = true) (p : Pattern) (h : k ∈ p.keys) :
    k ∈ p.runKeys := by
  match p with
  | nil | anyPos | str _ | tok _ | any => cases h
  | node _ ps | list ps => exact mem_runKeysAll_of_mem_keysAll hk ps h
  | runs front sections =>
    rcases List.mem_append.mp h with h | h
    · exact List.mem_append_left _ (mem_runKeysAll_of_mem_keysAll hk front h)
    · exact List.mem_append_right _ (mem_runKeysIn_of_mem_sectionKeys hk sections h)
  | pos p =>
    rw [keys] at h
    split at h
    · cases List.mem_singleton.mp h
      cases hk
    · cases h
  | doc _ | metavar _ _ | fieldList _ =>
    cases List.mem_singleton.mp h
    cases hk
  | loop _ body =>
    rcases List.mem_cons.mp h with rfl | h
    · cases hk
    · exact mem_runKeys_of_mem_keys hk body h

theorem mem_runKeysAll_of_mem_keysAll {k : Key} (hk : k.isOutside = true) (ps : List Pattern)
    (h : k ∈ keysAll ps) : k ∈ runKeysAll ps := by
  match ps with
  | [] => cases h
  | p :: ps =>
    rcases List.mem_append.mp h with h | h
    · exact List.mem_append_left _ (mem_runKeys_of_mem_keys hk p h)
    · exact List.mem_append_right _ (mem_runKeysAll_of_mem_keysAll hk ps h)

theorem mem_runKeysIn_of_mem_sectionKeys {k : Key} (hk : k.isOutside = true)
    (sections : List (Key × List Pattern)) (h : k ∈ sectionKeys sections) :
    k ∈ runKeysIn sections := by
  match sections with
  | [] => cases h
  | (key, items) :: rest =>
    rw [sectionKeys, List.mem_cons, List.mem_append] at h
    rw [runKeysIn, List.mem_cons, List.mem_append]
    rcases h with h | h | h
    · exact .inl h
    · exact .inr (.inl (mem_runKeysAll_of_mem_keysAll hk items h))
    · exact .inr (.inr (mem_runKeysIn_of_mem_sectionKeys hk rest h))

end

end Pattern

/-! ### Bindings that stay -/

/-- How a match that begins with the captures `c` and ends with `e` accounts for what it meets at
the metavariables among the keys `ks`: bindings stay, each occurrence has the shape of the value its
name is bound to in the end, and every name is met as often as it is listed. -/
structure Captures.Accounts (ks : List Key) (c e : Captures) (os : List (String × Tree)) :
    Prop where
  stay : ∀ {name x}, c.metavar? name = some x → e.metavar? name = some x
  agree : ∀ o ∈ os, ∃ v s, e.metavar? o.1 = some (v, s) ∧ v.SameShape o.2
  names : os.map (·.1) = ks.filterMap Key.metavarName?

theorem Captures.metavar?_bind {c : Captures} {k : Key} {name : String} (h : k ≠ .metavar name)
    (b : Binding) :
    (c.bind k b).metavar? name = c.metavar? name :=
  metavar?_congr (by rw [get?_bind, if_neg h])

namespace Captures.Accounts

variable {ks ks' : List Key} {c d e : Captures} {os os' : List (String × Tree)}

theorem refl (c : Captures) : Accounts [] c c [] := ⟨id, nofun, rfl⟩

theorem append (h : Accounts ks c d os) (h' : Accounts ks' d e os') :
    Accounts (ks ++ ks') c e (os ++ os') where
  stay hx := h'.stay (h.stay hx)
  agree o ho := by
    rcases List.mem_append.mp ho with ho | ho
    · obtain ⟨v, s, hbound, hshape⟩ := h.agree o ho
      exact ⟨v, s, h'.stay hbound, hshape⟩
    · exact h'.agree o ho
  names := by rw [List.map_append, List.filterMap_append, h.names, h'.names]

/-- A binding for something else than a metavariable changes nothing. -/
theorem bind (h : Accounts ks c d os) {k : Key} (hk : k.metavarName? = none) (b : Binding) :
    Accounts (k :: ks) c (d.bind k b) os := by
  have hget (name : String) : (d.bind k b).metavar? name = d.metavar? name := by
    refine metavar?_bind ?_ b
    rintro rfl
    cases hk
  refine ⟨fun hx => ?_, fun o ho => ?_, ?_⟩
  · rw [hget]
    exact h.stay hx
  · rw [hget]
    exact h.agree o ho
  · rw [List.filterMap_cons, hk]
    exact h.names

theorem metavar {name : String} {kind : MetaKind} {t : Tree}
    (h : Pattern.matchWith Pattern.replays (.metavar name kind) t c = some e) :
    Accounts [.metavar name] c e [(name, t)] := by
  rw [Pattern.matchWith] at h
  split at h
  · cases h
  · split at h
    · rename_i bound span hbound
      simp only [Option.ite_none_right_eq_some, Option.some.injEq] at h
      obtain ⟨hreplays, rfl⟩ := h
      refine ⟨id, ?_, rfl⟩
      rintro o ho
      cases List.mem_singleton.mp ho
      exact ⟨bound, span, hbound, Pattern.sameShape_of_replays hreplays⟩
    · rename_i hfree
      cases h
      refine ⟨fun {name' x} hx => ?_, ?_, rfl⟩
      · have hne : Key.metavar name ≠ .metavar name' := by
          rintro heq
          cases heq
          rw [hfree] at hx
          cases hx
        rwa [metavar?_bind hne]
      · rintro o ho
        cases List.mem_singleton.mp ho
        exact ⟨t, t.span, metavar?_of_get? (by rw [get?_bind, if_pos rfl]), rfl⟩

end Captures.Accounts

namespace Pattern

open Captures

mutual

/-- **A match accounts for its metavariables.** -/
theorem match?_accounts (p : Pattern) (hruns : ∀ k ∈ p.runKeys, k.isRun = true) {t : Tree}
    {c e : Captures} (h : p.match? t c = some e) :
    Captures.Accounts p.keys c e (p.occurrences t c) := by
  unfold match? at h
  match p with
  | nil | anyPos | str _ | tok _ | any =>
    rw [matchWith_plain rfl h]
    cases t <;> exact .refl e
  | node l ps =>
    cases t with
    | node l' ts =>
      simp only [matchWith, Option.ite_none_right_eq_some] at h
      exact matchAll_accounts ps hruns h.2
    | _ => cases h
  | list ps =>
    cases t with
    | list ts => exact matchAll_accounts ps hruns h
    | _ => cases h
  | runs front sections =>
    cases t with
    | list ts =>
      simp only [matchWith, Option.ite_none_left_eq_some] at h
      obtain ⟨c₁, h₁, h₂⟩ := Option.bind_eq_some_iff.mp h.2
      obtain ⟨hfront, hsections⟩ := List.forall_mem_append.mp hruns
      rw [keys, occurrences, h₁]
      exact (matchAll_accounts front hfront h₁).append
        (matchSections_accounts sections hsections h₂)
    | _ => cases h
  | pos p =>
    rw [keys]
    rcases matchWith_pos h with ⟨hp, q, rfl⟩ | ⟨hp, rfl⟩
    · rw [if_pos hp]
      cases t <;> exact (Captures.Accounts.refl c).bind rfl _
    · rw [if_neg (by rw [hp]; exact Bool.false_ne_true)]
      cases t <;> exact .refl c
  | doc p =>
    cases h
    cases t <;> exact (Captures.Accounts.refl c).bind rfl _
  | metavar name kind =>
    have hmetavar := Captures.Accounts.metavar h
    cases t <;> exact hmetavar
  | fieldList p =>
    simp only [matchWith, Option.ite_none_right_eq_some, Option.some.injEq] at h
    rw [← h.2]
    cases t <;> exact (Captures.Accounts.refl c).bind rfl _
  | loop p body =>
    obtain ⟨n, c₁, s, hn, -, h₁, rfl⟩ := matchWith_loop h
    obtain rfl := Tree.tree_of_node? hn
    exact (match?_accounts body hruns h₁).bind rfl _

theorem matchAll_accounts (ps : List Pattern) (hruns : ∀ k ∈ runKeysAll ps, k.isRun = true)
    {ts : List Tree} {c e : Captures} (h : matchAll replays ps ts c = some e) :
    Captures.Accounts (keysAll ps) c e (occurrencesAll ps ts c) := by
  match ps, ts with
  | [], [] =>
    cases h
    exact .refl c
  | p :: ps, t :: ts =>
    obtain ⟨c₁, h₁, h₂⟩ := Option.bind_eq_some_iff.mp h
    obtain ⟨hp, hps⟩ := List.forall_mem_append.mp hruns
    rw [keysAll, occurrencesAll, h₁]
    exact (match?_accounts p hp h₁).append (matchAll_accounts ps hps h₂)

theorem matchSections_accounts (sections : List (Key × List Pattern))
    (hruns : ∀ k ∈ runKeysIn sections, k.isRun = true) {ts : List Tree} {cursor : Nat}
    {c e : Captures} (h : matchSections replays ts sections cursor c = some e) :
    Captures.Accounts (sectionKeys sections) c e (occurrencesIn ts sections cursor c) := by
  match sections with
  | [] =>
    cases h
    exact .refl c
  | (key, items) :: rest =>
    rw [matchSections_eq_place?] at h
    obtain ⟨⟨start, c₁⟩, hplace, h⟩ := Option.bind_eq_some_iff.mp h
    obtain ⟨hkey, hruns⟩ := List.forall_mem_cons.mp hruns
    obtain ⟨hitems, hrest⟩ := List.forall_mem_append.mp hruns
    have hfound := (matchAll_accounts items hitems (matchAll_of_place? hplace)).bind
      (Key.metavarName?_of_isRun hkey) (.run ((ts.take start).drop cursor)
        (runSpan ts cursor start))
    rw [occurrencesIn, hplace]
    exact hfound.append (matchSections_accounts rest hrest h)

end

end Pattern

/-! ### Putting values in place of occurrences -/

namespace Tree.SameShape

variable {ts us : List Tree}

theorem unplaced_undocumentedAll (h : List.Forall₂ SameShape ts us) :
    mapPosAll (fun _ => .none) (undocumentedAll ts) = mapPosAll (fun _ => .none)
    (undocumentedAll us) := by
  induction h with
  | nil => rfl
  | cons hhead _ ih => exact List.cons_eq_cons.mpr ⟨hhead, ih⟩

theorem unplaced_undocumentedFields (h : List.Forall₂ SameShape ts us) (fs : List Field) :
    mapPosAll (fun _ => .none) (undocumentedFields fs ts) =
      mapPosAll (fun _ => .none) (undocumentedFields fs us) := by
  induction h generalizing fs with
  | nil => rfl
  | cons hhead _ ih =>
    cases fs with
    | nil => simp [undocumentedFields]
    | cons f fs =>
      rw [undocumentedFields, undocumentedFields, mapPosAll, mapPosAll, ih fs]
      split
      · rfl
      · exact congrArg (· :: _) hhead

theorem list (h : List.Forall₂ SameShape ts us) : (Tree.list ts).SameShape (.list us) :=
  congrArg Tree.list (unplaced_undocumentedAll h)

theorem node (k : Kind) (h : List.Forall₂ SameShape ts us) :
    (Tree.node k ts).SameShape (.node k us) :=
  congrArg (Tree.node k) (unplaced_undocumentedFields h k.fields)

theorem forall₂_refl (ts : List Tree) :
    List.Forall₂ SameShape ts ts := List.forall₂_same.mpr fun _ _ => rfl

theorem set {t u : Tree} (h : t.SameShape u) (n : Node) (l : Label) :
    (n.set l t).tree.SameShape (n.set l u).tree := by
  have hset (fs : List Tree) (i : Nat) : List.Forall₂ SameShape (fs.set i t) (fs.set i u) := by
    induction fs generalizing i with
    | nil => exact .nil
    | cons x fs ih =>
      cases i with
      | zero => exact .cons h (forall₂_refl fs)
      | succ i => exact .cons rfl (ih i)
  unfold Node.set
  split
  · exact .node n.kind (hset n.fields _)
  · rfl

end Tree.SameShape

namespace Pattern

variable {f : String → Tree → Tree}

mutual

/-- **Values of the same shape in place of the occurrences leave the shape of the whole as it
was.** -/
theorem refill_sameShape (p : Pattern) (t : Tree) (c : Captures)
    (h : ∀ o ∈ p.occurrences t c, (f o.1 o.2).SameShape o.2) : (p.refill f t c).SameShape t := by
  match p with
  | nil | pos _ | anyPos | str _ | tok _ | doc _ | any | fieldList _ => cases t <;> rfl
  | node l ps =>
    cases t with
    | node k ts => exact .node k (refillAll_sameShape ps ts c h)
    | _ => rfl
  | list ps =>
    cases t with
    | list ts => exact .list (refillAll_sameShape ps ts c h)
    | _ => rfl
  | runs front sections =>
    cases t with
    | list ts =>
      rw [occurrences, List.forall_mem_append] at h
      have hfront := refillAll_sameShape front (ts.take front.length) c h.1
      have hback : List.Forall₂ Tree.SameShape
          ((matchAll replays front (ts.take front.length) c).elim (ts.drop front.length)
            (refillIn f ts sections front.length)) (ts.drop front.length) := by
        cases hmatch : matchAll replays front (ts.take front.length) c with
        | none => exact Tree.SameShape.forall₂_refl _
        | some c₁ =>
          rw [hmatch] at h
          exact refillIn_sameShape sections ts front.length c₁ h.2
      have hall : List.Forall₂ Tree.SameShape _ (ts.take front.length ++ ts.drop front.length) :=
        List.rel_append hfront hback
      rw [List.take_append_drop] at hall
      exact .list hall
    | _ => rfl
  | metavar name kind =>
    rw [refill]
    rw [occurrences] at h
    exact h _ List.mem_cons_self
  | loop q body =>
    rw [refill]
    rw [occurrences] at h
    cases hn : t.node? with
    | none => rfl
    | some n =>
      rw [hn] at h
      obtain rfl := Tree.tree_of_node? hn
      have hset := (refill_sameShape body (n.get .body) c h).set n .body
      rwa [Node.set_get] at hset

theorem refillAll_sameShape (ps : List Pattern) (ts : List Tree) (c : Captures)
    (h : ∀ o ∈ occurrencesAll ps ts c, (f o.1 o.2).SameShape o.2) :
    List.Forall₂ Tree.SameShape (refillAll f ps ts c) ts := by
  match ps, ts with
  | [], ts => exact Tree.SameShape.forall₂_refl ts
  | _ :: _, [] => exact .nil
  | p :: ps, t :: ts =>
    rw [occurrencesAll, List.forall_mem_append] at h
    refine .cons (refill_sameShape p t c h.1) ?_
    cases hmatch : matchWith replays p t c with
    | none => exact Tree.SameShape.forall₂_refl ts
    | some c₁ =>
      rw [hmatch] at h
      exact refillAll_sameShape ps ts c₁ h.2

theorem refillIn_sameShape (sections : List (Key × List Pattern)) (ts : List Tree) (cursor : Nat)
    (c : Captures) (h : ∀ o ∈ occurrencesIn ts sections cursor c, (f o.1 o.2).SameShape o.2) :
    List.Forall₂ Tree.SameShape (refillIn f ts sections cursor c) (ts.drop cursor) := by
  match sections with
  | [] => exact Tree.SameShape.forall₂_refl _
  | (key, items) :: rest =>
    rw [occurrencesIn] at h
    rw [refillIn]
    cases hplace : place? ts items rest cursor c with
    | none => exact Tree.SameShape.forall₂_refl _
    | some x =>
      obtain ⟨start, c₁⟩ := x
      rw [hplace] at h
      obtain ⟨hitems, hrest⟩ := List.forall_mem_append.mp h
      obtain ⟨hstart, -⟩ := range_of_place? hplace
      -- the list from the cursor on is the run, the section and what follows it
      have hsplit : ts.drop cursor = (ts.take start).drop cursor ++ (ts.drop start).take
          items.length ++
          ts.drop (start + items.length) := by
        have hrun := List.drop_take_append_drop ts cursor (start - cursor)
        rw [Nat.add_sub_cancel' hstart, ← List.drop_take] at hrun
        rw [List.append_assoc, ← List.drop_drop, List.take_append_drop, hrun]
      rw [hsplit]
      exact List.rel_append (List.rel_append (Tree.SameShape.forall₂_refl _)
        (refillAll_sameShape items _ c hitems)) (refillIn_sameShape rest ts _ _ hrest)

end

end Pattern

end Graft
