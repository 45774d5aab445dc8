import Graft.Proofs.Match.Alike
import Graft.Proofs.Recipe.Replacing
import Graft.Proofs.Tree.Conforms
import Mathlib.Data.List.TakeDrop

/-! # Templates that undo their patterns

A pattern writes down what it finds under its keys (`Pattern.keys`), and nothing else changes
(`Pattern.matchWith_frame`).  A template *mirrors* a pattern if it asks for just these keys, each
where the pattern binds it (`Mirrors`).  If no key is bound twice, such a template puts every value
back as it was found: `Mirrors.build_of_match`.

The proof follows the template.  What a part of the pattern has bound is still there when all of it
has matched, as the parts that match later have other keys.
-/

namespace Graft

namespace Pattern

mutual

/-- The keys that a match of a pattern binds. -/
def keys : Pattern → List Key
  | node _ ps | list ps => keysAll ps
  | runs front sections => keysAll front ++ sectionKeys sections
  | pos p => if p.isValid then [.pos p] else []
  | doc p => [.doc p]
  | metavar name _ => [.metavar name]
  | fieldList p => [.fieldList p]
  | loop p body => .loopHeader p :: keys body
  | _ => []

/-- The keys that matches of some patterns bind. -/
def keysAll : List Pattern → List Key
  | [] => []
  | p :: ps => keys p ++ keysAll ps

/-- The keys that a match of some sections binds. -/
def sectionKeys : List (Key × List Pattern) → List Key
  | [] => []
  | (key, items) :: rest => key :: (keysAll items ++ sectionKeys rest)

end

/-! ### What a match leaves alone -/

variable {replay : Tree → Tree → Bool}

mutual

/-- **A match binds its keys and no others.** -/
theorem matchWith_frame (p : Pattern) {t : Tree} {c e : Captures}
    (h : matchWith replay p t c = some e) {k : Key} (hk : k ∉ p.keys) : e.get? k = c.get? k := by
  have hbind {k' : Key} {b : Binding} {c : Captures} (hne : k ≠ k') :
      (c.bind k' b).get? k = c.get? k := by
    rw [Captures.get?_bind, if_neg (Ne.symm hne)]
  match p with
  | nil | anyPos | str _ | tok _ | any => rw [matchWith_plain rfl h]
  | node l ps =>
    cases t with
    | node l' ts =>
      simp only [matchWith, Option.ite_none_right_eq_some] at h
      exact matchAll_frame ps h.2 hk
    | _ => cases h
  | list ps =>
    cases t with
    | list ts => exact matchAll_frame ps h hk
    | _ => cases h
  | runs front sections =>
    cases t with
    | list ts =>
      simp only [matchWith, Option.ite_none_left_eq_some] at h
      obtain ⟨c₁, h₁, h₂⟩ := Option.bind_eq_some_iff.mp h.2
      rw [keys, List.mem_append, not_or] at hk
      rw [matchSections_frame sections h₂ hk.2, matchAll_frame front h₁ hk.1]
    | _ => cases h
  | pos p =>
    rcases matchWith_pos h with ⟨hp, q, rfl⟩ | ⟨-, rfl⟩
    · rw [keys, if_pos hp, List.mem_singleton] at hk
      exact hbind hk
    · rfl
  | doc p =>
    cases h
    exact hbind (List.ne_of_not_mem_cons hk)
  | metavar name kind =>
    rcases (matchWith_metavar h).2 with ⟨-, rfl⟩ | ⟨-, rfl⟩
    · rfl
    · exact hbind (List.ne_of_not_mem_cons hk)
  | fieldList p =>
    simp only [matchWith, Option.ite_none_right_eq_some, Option.some.injEq] at h
    rw [← h.2]
    exact hbind (List.ne_of_not_mem_cons hk)
  | loop p body =>
    obtain ⟨n, c₁, s, -, -, h₁, rfl⟩ := matchWith_loop h
    rw [hbind (List.ne_of_not_mem_cons hk), matchWith_frame body h₁
      (List.not_mem_of_not_mem_cons hk)]

theorem matchAll_frame (ps : List Pattern) {ts : List Tree} {c e : Captures}
    (h : matchAll replay ps ts c = some e) {k : Key} (hk : k ∉ keysAll ps) :
    e.get? k = c.get? k := by
  match ps, ts with
  | [], [] =>
    cases h
    rfl
  | p :: ps, t :: ts =>
    obtain ⟨c₁, h₁, h₂⟩ := Option.bind_eq_some_iff.mp h
    rw [keysAll, List.mem_append, not_or] at hk
    rw [matchAll_frame ps h₂ hk.2, matchWith_frame p h₁ hk.1]

theorem matchSections_frame (sections : List (Key × List Pattern)) {ts : List Tree} {cursor : Nat}
    {c e : Captures} (h : matchSections replay ts sections cursor c = some e) {k : Key}
    (hk : k ∉ sectionKeys sections) : e.get? k = c.get? k := by
  match sections with
  | [] =>
    cases h
    rfl
  | (key, items) :: rest =>
    obtain ⟨us, vs, s, i, c₁, -, -, h₁, h₂⟩ := matchSections_cons h
    rw [sectionKeys, List.mem_cons, List.mem_append, not_or, not_or] at hk
    rw [matchSections_frame rest h₂ hk.2.2, Captures.get?_bind, if_neg (Ne.symm hk.1),
      matchAll_frame items h₁ hk.2.1]

end

theorem length_eq_of_matchAll {ps : List Pattern} {ts : List Tree} {c e : Captures}
    (h : matchAll replay ps ts c = some e) : ts.length = ps.length := by
  induction ps generalizing ts c with
  | nil =>
    cases ts with
    | nil => rfl
    | cons => cases h
  | cons p ps ih =>
    cases ts with
    | nil => cases h
    | cons t ts =>
      obtain ⟨c₁, -, h⟩ := Option.bind_eq_some_iff.mp h
      rw [List.length_cons, List.length_cons, ih h]

theorem range_of_firstStart {attempt : Nat → Option Captures} {first count i : Nat} {c : Captures}
    (h : firstStart attempt first count = some (i, c)) : first ≤ i ∧ i < first + count := by
  obtain ⟨j, hj, hi⟩ := List.exists_of_findSome?_eq_some h
  obtain ⟨c', -, heq⟩ := Option.map_eq_some_iff.mp hi
  cases heq
  exact List.mem_range'_1.mp hj

/-- Where a section is found: its run reaches from the cursor to it, and the last one ends the
list. -/
theorem exists_of_matchSections_cons {ts : List Tree} {key : Key} {items : List Pattern}
    {rest : List (Key × List Pattern)} {cursor : Nat} {c e : Captures}
    (h : matchSections replay ts ((key, items) :: rest) cursor c = some e) :
    ∃ i c₁ s, cursor ≤ i ∧ (rest = [] → i + items.length = ts.length) ∧
      matchAll replay items ((ts.drop i).take items.length) c = some c₁ ∧
      matchSections replay ts rest (i + items.length)
        (c₁.bind key (.run ((ts.take i).drop cursor) s)) = some e := by
  rw [matchSections_eq_bind] at h
  split at h
  · cases h
  · rename_i hlength
    obtain ⟨⟨i, c₁⟩, hfound, h⟩ := Option.bind_eq_some_iff.mp h
    split at hfound
    · have hrange := range_of_firstStart hfound
      exact ⟨i, c₁, _, by omega, fun _ => by omega, attempt_of_firstStart hfound, h⟩
    · rename_i hrest
      have hrange := range_of_firstStart hfound
      exact ⟨i, c₁, _, hrange.1, fun hnil => absurd (List.isEmpty_iff.mpr hnil) hrest,
        attempt_of_firstStart hfound, h⟩

end Pattern

/-! ### Mirrors -/

mutual

/-- Whether a template asks for what a pattern binds, and is the same besides.  A wildcard loop has
a block for its body. -/
inductive Mirrors : Pattern → Template → Prop where
  | nil : Mirrors .nil .nil
  | node (k : Kind) {ps : List Pattern} {ts : List Template} (h : MirrorsAll ps ts) :
    Mirrors (.node k ps) (.node k ts)
  | list {ps : List Pattern} {is : List TemplateItem} (h : MirrorsItems ps [] is) :
    Mirrors (.list ps) (.list is)
  | runs {front : List Pattern} {sections : List (Key × List Pattern)} {is : List TemplateItem}
      (hne : sections ≠ []) (h : MirrorsItems front sections is) :
    Mirrors (.runs front sections) (.list is)
  | pos {p : Pos} (h : p.isValid = true) : Mirrors (.pos p) (.pos p (some p))
  | noPos {p : Pos} (h : p.isValid = false) (q : Option Pos) : Mirrors (.pos p) (.pos p q)
  | str (s : String) : Mirrors (.str s) (.str s)
  | tok (t : Token) : Mirrors (.tok t) (.tok t)
  | doc (p : Pos) : Mirrors (.doc p) (.doc (some p) .nil)
  | metavar (name : String) (kind : MetaKind) (p : Pos) : Mirrors (.metavar name kind)
    (.metavar name p)
  | fieldList (p : Pos) : Mirrors (.fieldList p) (.fieldList p (some p))
  | loop (p : Pos) {ps : List Pattern} {body : Template} (h : Mirrors (.node .blockStmt ps) body) :
    Mirrors (.loop p (.node .blockStmt ps)) (.loop p (some p) body)

/-- Whether templates mirror patterns one by one. -/
inductive MirrorsAll : List Pattern → List Template → Prop where
  | nil : MirrorsAll [] []
  | cons {p : Pattern} {ps : List Pattern} {t : Template} {ts : List Template} (h : Mirrors p t)
      (hs : MirrorsAll ps ts) : MirrorsAll (p :: ps) (t :: ts)

/-- Whether the elements that are built are those of a list pattern in sections. -/
inductive MirrorsItems : List Pattern → List (Key × List Pattern) → List TemplateItem → Prop where
  | nil : MirrorsItems [] [] []
  | one {p : Pattern} {front : List Pattern} {sections : List (Key × List Pattern)} {t : Template}
      {is : List TemplateItem} (h : Mirrors p t) (hs : MirrorsItems front sections is) :
    MirrorsItems (p :: front) sections (.one t :: is)
  | splice (key : Key) (p : Pos) {front : List Pattern} {sections : List (Key × List Pattern)}
      {is : List TemplateItem} (hs : MirrorsItems front sections is) :
    MirrorsItems [] ((key, front) :: sections) (.splice (some key) p :: is)

end

/-- One more run at the end of a list. -/
theorem MirrorsItems.snoc {front : List Pattern} {sections : List (Key × List Pattern)}
    {is : List TemplateItem} (h : MirrorsItems front sections is) (key : Key) (p : Pos) :
    MirrorsItems front (sections ++ [(key, [])]) (is ++ [.splice (some key) p]) := by
  match is, h with
  | [], .nil => exact .splice key p .nil
  | _ :: _, .one h hs => exact .one h (hs.snoc key p)
  | _ :: _, .splice key' p' hs => exact .splice key' p' (hs.snoc key p)

/-! ### Building what was there -/

namespace Builder

variable {α β : Type}

/-- Whether building comes to the given value, wherever it starts. -/
def Builds (b : Builder α) (a : α) : Prop := ∀ d, ∃ d', b.run d = .ok (a, d')

theorem builds_pure (a : α) : (pure a : Builder α).Builds a := fun d => ⟨d, rfl⟩

theorem Builds.bind {b : Builder α} {f : α → Builder β} {a : α} {a' : β} (h : b.Builds a)
    (hf : (f a).Builds a') : (b >>= f).Builds a' := by
  intro d
  obtain ⟨d₁, h₁⟩ := h d
  obtain ⟨d₂, h₂⟩ := hf d₁
  refine ⟨d₂, ?_⟩
  rw [StateT.run_bind, h₁]
  exact h₂

theorem builds_spare (s : Span) : (spare s).Builds () := fun _ => ⟨_, rfl⟩

theorem builds_moveTo (p : Pos) : (moveTo p).Builds () := fun _ => ⟨_, rfl⟩

theorem builds_require {found : Option α} {a : α} (h : found = some a)
    (part : MissingPart) (p : Pos) :
    (require found part p).Builds a := by
  subst h
  exact builds_pure a

end Builder

theorem firstMisfit_of_conforms {k : Kind} {fs : List Tree} (h : (Tree.node k fs).conforms = true) :
    firstMisfit k fs = none := by
  obtain ⟨-, hslots, -⟩ := Tree.conforms_node.mp h
  rw [firstMisfit, Option.map_eq_none_iff, List.find?_eq_none]
  rintro x hx
  simp [hslots x hx]

theorem Captures.metavar?_of_get? {c : Captures} {name : String} {v : Tree} {s : Span}
    (h : c.get? (.metavar name) = some (.metavar v s)) : c.metavar? name = some (v, s) := by
  unfold metavar?
  rw [h]

theorem Captures.run?_of_get? {c : Captures} {k : Key} {ts : List Tree} {s : Span}
    (h : c.get? k = some (.run ts s)) : c.run? k = some (ts, s) := by
  unfold run?
  rw [h]

theorem Captures.pos?_of_get? {c : Captures} {k : Key} {p : Pos} (h : c.get? k = some (.pos p)) :
    c.pos? k = some p := by
  unfold pos?
  rw [h]

theorem Captures.captured?_of_get? {c : Captures} {k : Key} {v : Tree} {s : Span}
    (h : c.get? k = some (.captured v s)) : c.captured? k = some (v, s) := by
  unfold captured?
  rw [h]

/-- Whether none of the metavariables among some keys is bound. -/
def Captures.IsFresh (c : Captures) (ks : List Key) : Prop :=
  ∀ name, .metavar name ∈ ks → c.metavar? name = none

theorem Captures.metavar?_congr {c c' : Captures} {name : String}
    (h : c.get? (.metavar name) = c'.get? (.metavar name)) :
    c.metavar? name = c'.metavar? name := by
  unfold metavar?
  rw [h]

theorem Captures.IsFresh.of_get? {c c' : Captures} {ks : List Key} (h : c.IsFresh ks)
    (hget : ∀ k ∈ ks, c'.get? k = c.get? k) : c'.IsFresh ks := by
  intro name hname
  rw [metavar?_congr (hget _ hname)]
  exact h name hname

theorem Captures.IsFresh.mono {c : Captures} {ks ks' : List Key} (h : c.IsFresh ks)
    (hsub : ks' ⊆ ks) :
    c.IsFresh ks' := fun name hname => h name (hsub hname)

/-- A node with a field cleared and filled again. -/
theorem Node.set_without (n : Node) (l : Label) (t : Tree) : (n.without l).set l t = n.set l t := by
  unfold without
  split <;> exact set_set ..

theorem Node.set_get (n : Node) (l : Label) : n.set l (n.get l) = n := by
  obtain ⟨k, fs⟩ := n
  unfold set get
  dsimp only
  split
  · rename_i i _
    by_cases hi : i < fs.length
    · simp [List.getElem?_eq_getElem hi]
    · simp [List.set_eq_of_length_le (Nat.le_of_not_lt hi)]
  · rfl

open Pattern Template Builder

variable {replay : Tree → Tree → Bool}

theorem build_pos_of_match {p : Pos} (hp : p.isValid = true) {v : Tree} {c e e' : Captures}
    (h : matchWith replay (.pos p) v c = some e) (he : e'.get? (.pos p) = e.get? (.pos p)) :
    (build e' (.pos p (some p))).Builds v := by
  cases v with
  | pos q =>
    rw [matchWith, hp] at h
    cases hq : q.isValid with
    | true =>
      simp only [hq, Bool.and_true, if_true, Option.some.injEq] at h
      rw [← h, Captures.get?_bind, if_pos rfl] at he
      rw [build, hp]
      intro d
      refine ⟨d, ?_⟩
      rw [Option.bind_some, Captures.pos?_of_get? he]
      rfl
    | false => simp [hq] at h
  | _ => cases h

/-- A place that stands nowhere matches such a place only. -/
theorem build_noPos_of_match {p : Pos} (hp : p.isValid = false) {v : Tree} {c e e' : Captures}
    (h : matchWith replay (.pos p) v c = some e) (counterpart : Option Pos) :
    (build e' (.pos p counterpart)).Builds v := by
  cases v with
  | pos q =>
    rw [matchWith] at h
    simp only [hp, Bool.false_and, Bool.not_false, Bool.true_and, Bool.false_eq_true, if_false,
      Option.ite_none_right_eq_some, Bool.not_eq_true'] at h
    rw [Pos.eq_none (p := q) (by rw [h.1]; nofun), build]
    dsimp only
    rw [hp]
    exact builds_pure _
  | _ => cases h

theorem isKind_of_matchWith {k : Kind} {ps : List Pattern} {v : Tree} {c e : Captures}
    (h : matchWith replay (.node k ps) v c = some e) : v.isKind k = true := by
  cases v with
  | node l vs =>
    simp only [matchWith, Option.ite_none_right_eq_some] at h
    rw [← h.1]
    simp [Tree.isKind, Tree.kind?]
  | _ => cases h

/-- A loop is put back from its header, which is bound without the body, and its body. -/
theorem build_loop {e : Captures} {p : Pos} {n : Node} {s : Span} {body : Template}
    (hheader : e.get? (.loopHeader p) = some (.captured (n.without .body) s))
    (hblock : (n.get .body).isKind .blockStmt = true)
    (hbody : (build e body).Builds (n.get .body)) :
    (build e (.loop p (some p) body)).Builds n.tree := by
  rw [build]
  refine (builds_require (Captures.captured?_of_get? hheader) _ _).bind
    ((builds_require (a := n.without .body) rfl _ _).bind ((builds_spare _).bind
      ((builds_moveTo _).bind (hbody.bind ?_))))
  rw [if_pos hblock, Node.set_without, Node.set_get]
  exact builds_pure _

mutual

/-- **What a pattern has found, a template that mirrors it puts back**, from any captures that agree
on the keys of the pattern. -/
theorem Mirrors.build_of_match {p : Pattern} {t : Template} (hm : Mirrors p t)
    (hkeys : p.keys.Nodup) {v : Tree} (hv : v.conforms = true) {c e e' : Captures}
    (hfresh : c.IsFresh p.keys) (h : matchWith replay p v c = some e)
    (he : ∀ k ∈ p.keys, e'.get? k = e.get? k) :
    (t.build e').Builds v := by
  match t, hm with
  | _, .nil =>
    rw [matchWith] at h
    simp only [Option.ite_none_right_eq_some] at h
    cases v with
    | nil => exact builds_pure _
    | _ => cases h.1
  | _, .node k hs =>
    cases v with
    | node l vs =>
      simp only [matchWith, Option.ite_none_right_eq_some] at h
      obtain ⟨rfl, h⟩ := h
      rw [build]
      refine (hs.buildAll_of_match hkeys (Tree.conforms_node.mp hv).2.2 hfresh h he).bind ?_
      rw [firstMisfit_of_conforms hv]
      exact builds_pure _
    | _ => cases h
  | _, .list hs =>
    cases v with
    | list vs =>
      have hlength := length_eq_of_matchAll h
      have hall : (vs.drop 0).take _ = vs := List.take_of_length_le (Nat.le_of_eq hlength)
      rw [keys] at hkeys hfresh he
      rw [build]
      refine (hs.buildItems_of_match (c := c) (i := 0) ?_ (Tree.conforms_list.mp hv) hfresh nofun
        (hall.symm ▸ h) (fun _ _ => rfl) rfl (fun _ => ?_) ?_).bind (builds_pure _)
      · rwa [sectionKeys, List.append_nil]
      · rw [hlength, Nat.zero_add]
      · rwa [sectionKeys, List.append_nil]
    | _ => cases h
  | _, .runs hne hs =>
    cases v with
    | list vs =>
      simp only [matchWith, Option.ite_none_left_eq_some] at h
      obtain ⟨c₁, h₁, h₂⟩ := Option.bind_eq_some_iff.mp h.2
      rw [keys] at hkeys hfresh he
      have hdisjoint := (List.nodup_append.mp hkeys).2.2
      have hfresh₁ : c₁.IsFresh _ :=
        (hfresh.mono (List.subset_append_right _ _)).of_get? fun k hk =>
        matchAll_frame _ h₁ fun hk' => hdisjoint k hk' k hk rfl
      rw [build]
      refine (hs.buildItems_of_match (i := 0) hkeys (Tree.conforms_list.mp hv)
        (hfresh.mono (List.subset_append_left _ _)) hfresh₁ h₁ (fun _ _ => rfl) ?_
        (fun hnil => absurd hnil hne) he).bind (builds_pure _)
      rwa [Nat.zero_add]
    | _ => cases h
  | _, .pos hp =>
    exact build_pos_of_match hp h (he _ (by rw [keys, if_pos hp]; exact List.mem_cons_self))
  | _, .noPos hp q => exact build_noPos_of_match hp h q
  | _, .str s =>
    cases v with
    | str s' =>
      simp only [matchWith, Option.ite_none_right_eq_some] at h
      rw [← h.1]
      exact builds_pure _
    | _ => cases h
  | _, .tok s =>
    cases v with
    | tok s' =>
      simp only [matchWith, Option.ite_none_right_eq_some] at h
      rw [← h.1]
      exact builds_pure _
    | _ => cases h
  | _, .doc p =>
    cases h
    have hget := he (.doc p) List.mem_cons_self
    rw [Captures.get?_bind, if_pos rfl] at hget
    rw [build, if_pos (show Template.nil.isNil = true from rfl), Option.bind_some,
      Captures.captured?_of_get? hget]
    exact (builds_spare _).bind (builds_pure v)
  | _, .metavar name kind p =>
    have hget := he (.metavar name) List.mem_cons_self
    rcases (matchWith_metavar h).2 with ⟨hbound, -⟩ | ⟨-, rfl⟩
    · rw [hfresh name List.mem_cons_self] at hbound
      cases hbound
    · rw [Captures.get?_bind, if_pos rfl] at hget
      rw [build]
      exact (builds_require (Captures.metavar?_of_get? hget) _ _).bind
        ((builds_spare _).bind (builds_pure v))
  | _, .fieldList p =>
    simp only [matchWith, Option.ite_none_right_eq_some, Option.some.injEq] at h
    have hget := he (.fieldList p) List.mem_cons_self
    rw [← h.2, Captures.get?_bind, if_pos rfl] at hget
    rw [build]
    exact (builds_require (Captures.captured?_of_get? hget) _ _).bind
      ((builds_spare _).bind (builds_pure v))
  | _, .loop p hbody =>
    obtain ⟨n, c₁, s, hn, -, h₁, rfl⟩ := matchWith_loop h
    obtain rfl := Tree.tree_of_node? hn
    rw [keys] at hkeys hfresh he
    obtain ⟨hnotMem, hnodup⟩ := List.nodup_cons.mp hkeys
    have hget := he (.loopHeader p) List.mem_cons_self
    rw [Captures.get?_bind, if_pos rfl] at hget
    -- the header is bound behind the body, under a key of its own
    refine build_loop hget (isKind_of_matchWith h₁)
      (hbody.build_of_match hnodup (Node.conforms_get hv)
        (hfresh.mono (List.subset_cons_self _ _)) h₁ ?_)
    intro k hk
    rw [he k (List.mem_cons_of_mem _ hk), Captures.get?_bind,
      if_neg fun heq : .loopHeader p = k => hnotMem (heq ▸ hk)]

theorem MirrorsAll.buildAll_of_match {ps : List Pattern} {ts : List Template}
    (hm : MirrorsAll ps ts) (hkeys : (keysAll ps).Nodup) {vs : List Tree}
    (hvs : ∀ v ∈ vs, v.conforms = true) {c e e' : Captures} (hfresh : c.IsFresh (keysAll ps))
    (h : matchAll replay ps vs c = some e) (he : ∀ k ∈ keysAll ps, e'.get? k = e.get? k) :
    (buildAll e' ts).Builds vs := by
  match ts, hm with
  | _, .nil =>
    cases vs with
    | nil => exact builds_pure _
    | cons => cases h
  | _, @MirrorsAll.cons p ps t ts hp hs =>
    cases vs with
    | nil => cases h
    | cons v vs =>
      obtain ⟨c₁, h₁, h₂⟩ := Option.bind_eq_some_iff.mp h
      rw [keysAll] at hkeys hfresh he
      obtain ⟨hnodup, hnodup', hdisjoint⟩ := List.nodup_append.mp hkeys
      obtain ⟨hv, hvs⟩ := List.forall_mem_cons.mp hvs
      have hfresh₁ : c₁.IsFresh (keysAll ps) :=
        (hfresh.mono (List.subset_append_right _ _)).of_get? fun k hk =>
          matchWith_frame p h₁ fun hk' => hdisjoint k hk' k hk rfl
      have hhead : (build e' t).Builds v :=
        hp.build_of_match hnodup hv (hfresh.mono (List.subset_append_left _ _)) h₁ fun k hk => by
          rw [he k (List.mem_append_left _ hk), matchAll_frame ps h₂ fun hk' =>
            hdisjoint k hk k hk' rfl]
      have htail := hs.buildAll_of_match hnodup' hvs hfresh₁ h₂ fun k hk =>
        he k (List.mem_append_right _ hk)
      rw [buildAll]
      exact hhead.bind (htail.bind (builds_pure _))

theorem MirrorsItems.buildItems_of_match {front : List Pattern}
    {sections : List (Key × List Pattern)} {is : List TemplateItem}
    (hm : MirrorsItems front sections is) (hkeys : (keysAll front ++ sectionKeys sections).Nodup)
    {vs : List Tree} (hvs : ∀ v ∈ vs, v.conforms = true) {i : Nat} {c c₁ c₂ e e' : Captures}
    (hfresh : c.IsFresh (keysAll front)) (hfresh' : c₂.IsFresh (sectionKeys sections))
    (hfront : matchAll replay front ((vs.drop i).take front.length) c = some c₁)
    (hmid : ∀ k ∈ keysAll front, c₂.get? k = c₁.get? k)
    (hsections : matchSections replay vs sections (i + front.length) c₂ = some e)
    (hend : sections = [] → i + front.length = vs.length)
    (he : ∀ k ∈ keysAll front ++ sectionKeys sections, e'.get? k = e.get? k) :
    (buildItems e' is).Builds (vs.drop i) := by
  match is, hm with
  | _, .nil =>
    have hlength : i = vs.length := hend rfl
    rw [hlength, List.drop_length]
    exact builds_pure _
  | _, @MirrorsItems.one p front sections t is hp hs =>
    cases hdrop : vs.drop i with
    | nil =>
      rw [hdrop] at hfront
      cases hfront
    | cons v us =>
      have hus : vs.drop (i + 1) = us := by
        rw [← List.drop_drop, hdrop, List.drop_one, List.tail_cons]
      rw [hdrop, List.length_cons, List.take_succ_cons] at hfront
      obtain ⟨c₃, h₁, h₂⟩ := Option.bind_eq_some_iff.mp hfront
      rw [keysAll] at hfresh hmid
      rw [keysAll, List.append_assoc] at hkeys he
      obtain ⟨hnodup, hnodup', hdisjoint⟩ := List.nodup_append.mp hkeys
      have hv : v.conforms = true := hvs v (List.mem_of_mem_drop (hdrop ▸ List.mem_cons_self))
      have hfresh₃ : c₃.IsFresh (keysAll front) :=
        (hfresh.mono (List.subset_append_right _ _)).of_get? fun k hk =>
          matchWith_frame p h₁ fun hk' => hdisjoint k hk' k (List.mem_append_left _ hk) rfl
      have hhead : (build e' t).Builds v := by
        refine hp.build_of_match hnodup hv (hfresh.mono (List.subset_append_left _ _)) h₁
          fun k hk => ?_
        have hk' : k ∉ keysAll front ++ sectionKeys sections := fun hk' => hdisjoint k hk k hk' rfl
        rw [List.mem_append, not_or] at hk'
        rw [he k (List.mem_append_left _ hk), matchSections_frame _ hsections hk'.2,
          hmid k (List.mem_append_left _ hk), matchAll_frame front h₂ hk'.1]
      have htail : (buildItems e' is).Builds us := by
        rw [← hus]
        refine hs.buildItems_of_match (i := i + 1) hnodup' hvs hfresh₃ hfresh' (hus.symm ▸ h₂)
          (fun k hk => hmid k (List.mem_append_right _ hk)) ?_ (fun hnil => ?_)
          fun k hk => he k (List.mem_append_right _ hk)
        · rwa [Nat.add_assoc, Nat.add_comm 1]
        · rw [← hend hnil, List.length_cons]
          omega
      rw [buildItems]
      exact hhead.bind (htail.bind (builds_pure _))
  | _, @MirrorsItems.splice key p front sections is hs =>
    rw [List.length_nil, Nat.add_zero] at hsections
    obtain ⟨j, c₃, s, hij, hlast, h₁, h₂⟩ := exists_of_matchSections_cons hsections
    rw [keysAll, List.nil_append, sectionKeys] at hkeys he
    rw [sectionKeys] at hfresh'
    obtain ⟨hnotMem, hnodup⟩ := List.nodup_cons.mp hkeys
    have hdisjoint := (List.nodup_append.mp hnodup).2.2
    have hne {k : Key} (hk : k ∈ keysAll front ++ sectionKeys sections) : key ≠ k :=
      fun heq => hnotMem (heq ▸ hk)
    have hrun := he key List.mem_cons_self
    rw [matchSections_frame _ h₂ fun hk => hne (List.mem_append_right _ hk) rfl, Captures.get?_bind,
      if_pos rfl] at hrun
    have hfresh₃ : (c₃.bind key (.run ((vs.take j).drop i) s)).IsFresh (sectionKeys sections) := by
      refine (hfresh'.mono fun k hk => List.mem_cons_of_mem _ (List.mem_append_right _ hk)).of_get?
        ?_
      intro k hk
      rw [Captures.get?_bind, if_neg (hne (List.mem_append_right _ hk)),
        matchAll_frame front h₁ fun hk' => hdisjoint k hk' k hk rfl]
    have htail : (buildItems e' is).Builds (vs.drop j) := by
      refine hs.buildItems_of_match hnodup hvs
        (hfresh'.mono fun k hk => List.mem_cons_of_mem _ (List.mem_append_left _ hk))
        hfresh₃ h₁ ?_ h₂
        hlast fun k hk => he k (List.mem_cons_of_mem _ hk)
      intro k hk
      rw [Captures.get?_bind, if_neg (hne (List.mem_append_left _ hk))]
    have hsplit : (vs.take j).drop i ++ vs.drop j = vs.drop i := by
      have hjoin := List.drop_take_append_drop vs i (j - i)
      rwa [Nat.add_sub_cancel' hij, ← List.drop_take] at hjoin
    rw [buildItems, ← hsplit]
    exact (builds_require (Captures.run?_of_get? hrun) _ _).bind
      ((builds_spare _).bind ((builds_moveTo _).bind (htail.bind (builds_pure _))))

end

end Graft
