import Graft.Proofs.Patch.Keys
import Graft.Proofs.Patch.Sides
import Mathlib.Data.List.Pairwise
import Mathlib.Data.List.Sort

/-! # What places of a replacement stand for

A place on a context line stands for the place at the same line and column of the pattern, if the
pattern records one there.  A place on an added line is ranked, and stands for the place of the same
rank among the removed lines of its hunk (`Pairing.standsFor_of_get?`).

Within a hunk, the places of one kind are sorted, and no two of them are the same
(`Ranked.pairwise_group`): the places by which nodes are ranked are all different but for wildcards
without a name.  So the number of a place in such a list is its rank, and wildcards stand in the
order of those that they stand for.
-/

namespace Graft

/-! ### Ranks -/

/-- The number of places that are before a place. -/
def Pos.rankIn (ps : List Pos) (p : Pos) : Nat := (ps.filter (· < p)).length

namespace Pos

variable {ps qs : List Pos} {p q : Pos}

theorem rankIn_of_perm (h : ps.Perm qs) (p : Pos) :
    p.rankIn ps = p.rankIn qs := (h.filter _).length_eq

/-- The rank of a place in a sorted list is its number there. -/
theorem rankIn_eq {i : Nat} (h : ps.Pairwise (· < ·)) (hp : ps[i]? = some p) : p.rankIn ps = i := by
  induction ps generalizing i with
  | nil => cases hp
  | cons q ps ih =>
    obtain ⟨hfirst, hrest⟩ := List.pairwise_cons.mp h
    cases i with
    | zero =>
      obtain rfl := Option.some.inj hp
      have hnone : ∀ r ∈ q :: ps, ¬ r < q := List.forall_mem_cons.mpr
        ⟨Nat.lt_irrefl _, fun r hr => Nat.lt_asymm (hfirst r hr)⟩
      exact List.length_eq_zero_iff.mpr (List.filter_eq_nil_iff.mpr fun r hr => by
        simpa using hnone r hr)
    | succ i =>
      have hlt := hfirst p (List.mem_of_getElem? hp)
      rw [rankIn, List.filter_cons_of_pos (by simpa using hlt), List.length_cons]
      exact congrArg (· + 1) (ih hrest hp)

/-- Ranks are in the order of the places. -/
theorem rankIn_lt_iff (hp : p ∈ ps) (hq : q ∈ ps) : p.rankIn ps < q.rankIn ps ↔ p < q := by
  have hlt {p q : Pos} (hp : p ∈ ps) (h : p < q) : p.rankIn ps < q.rankIn ps := by
    have hfilter : ps.filter (· < p) = (ps.filter (· < q)).filter (· < p) := by
      rw [List.filter_filter]
      refine List.filter_congr fun r _ => ?_
      by_cases hr : r < p
      · simp [hr, show r < q from Nat.lt_trans hr h]
      · simp [hr]
    rw [rankIn, hfilter]
    refine List.length_filter_lt_length_iff_exists.mpr
      ⟨p, List.mem_filter.mpr ⟨hp, by simpa using h⟩, ?_⟩
    exact fun hpp => Nat.lt_irrefl p.index (of_decide_eq_true hpp)
  refine ⟨fun hrank => ?_, hlt hp⟩
  rcases Nat.lt_trichotomy p.index q.index with h | h | h
  · exact h
  · obtain rfl : p = q := congrArg Pos.mk h
    exact absurd hrank (Nat.lt_irrefl _)
  · exact absurd (hlt hq h) (Nat.lt_asymm hrank)

theorem rankIn_inj (hp : p ∈ ps) (hq : q ∈ ps) (h : p.rankIn ps = q.rankIn ps) : p = q := by
  rcases Nat.lt_trichotomy p.index q.index with hlt | heq | hlt
  · exact absurd ((rankIn_lt_iff hp hq).mpr hlt) (h ▸ Nat.lt_irrefl _)
  · exact congrArg Pos.mk heq
  · exact absurd ((rankIn_lt_iff hq hp).mpr hlt) (h ▸ Nat.lt_irrefl _)

end Pos

/-! ### Ranked places of a side -/

namespace Side

/-- The places by which nodes of a kind are ranked on the lines of an origin. -/
def ranked (s : Side) (o : Origin) (k : Kind) : List Pos :=
  (s.fragment.trees.flatMap Tree.nodes).filterMap fun n =>
    if n.kind = k then n.rankKey?.filter fun p => s.origin? p == some o else none

/-- Whether the parameters and fields without a name that are wildcards are all on context lines. -/
def BareDotsInContext (s : Side) : Prop :=
  ∀ n ∈ s.fragment.trees.flatMap Tree.nodes, n.isBareDots = true → ∀ p ∈ n.docKey?,
    s.origin? p = some .context

instance (s : Side) : Decidable s.BareDotsInContext :=
  inferInstanceAs (Decidable (∀ n ∈ _, _ = true → ∀ p ∈ Node.docKey? n, _))

variable {s : Side} {o : Origin} {k : Kind} {p : Pos}

theorem mem_ranked : p ∈ s.ranked o k ↔
    ∃ n ∈ s.fragment.trees.flatMap Tree.nodes, n.kind = k ∧ n.rankKey? = some p ∧
    s.origin? p = some o := by
  rw [ranked, List.mem_filterMap]
  refine exists_congr fun n => and_congr_right fun _ => ?_
  split
  · rename_i hk
    simp [Option.filter_eq_some_iff, hk]
  · rename_i hk
    simp [hk]

theorem ownKey?_of_ranked {n : Node} (hs : s.BareDotsInContext) (ho : o ≠ .context)
    (hn : n ∈ s.fragment.trees.flatMap Tree.nodes) (hkey : n.rankKey? = some p)
    (horigin : s.origin? p = some o) :
    n.ownKey? = some p := by
  rw [Node.ownKey?]
  split
  · rename_i hbare
    have hfield : n.kind = .field := by simp_all [Node.isBareDots]
    have hdoc : n.docKey? = some p := by
      rw [Node.rankKey?, hfield] at hkey
      exact hkey
    have hcontext := hs n hn hbare p hdoc
    rw [horigin] at hcontext
    exact absurd (Option.some.inj hcontext) ho
  · exact hkey

/-- Ranked places are those of different nodes. -/
theorem pairwise_ownKeys {text : List Char} (h : parseFragment .pattern text = .ok s.fragment) :
    (s.fragment.trees.flatMap Tree.nodes).Pairwise fun m n => ∀ p, m.ownKey? = some p →
      n.ownKey? ≠ some p := by
  have hnodup := nodup_ownKeys_of_parseFragment h
  rw [Tree.ownKeys, Tree.nodes_list, Tree.nodesAll_eq_flatMap] at hnodup
  refine (List.pairwise_filterMap.mp hnodup).imp fun hne p hm hn => hne p hm p hn rfl

theorem nodup_ranked {text : List Char} (h : parseFragment .pattern text = .ok s.fragment)
    (hs : s.BareDotsInContext) (ho : o ≠ .context) : (s.ranked o k).Nodup := by
  refine List.pairwise_filterMap.mpr ((pairwise_ownKeys h).imp_of_mem
    fun {m n} hm hn hne p hp q hq => ?_)
  have hkey {n : Node} {p : Pos} (hn : n ∈ s.fragment.trees.flatMap Tree.nodes)
      (hp : (if n.kind = k then n.rankKey?.filter fun p => s.origin? p == some o
        else none) = some p) :
      n.ownKey? = some p := by
    split at hp
    · obtain ⟨hkey, horigin⟩ := Option.filter_eq_some_iff.mp hp
      exact ownKey?_of_ranked hs ho hn hkey (by simpa using horigin)
    · cases hp
  rintro rfl
  exact hne p (hkey hm hp) (hkey hn hq)

/-- A place is ranked among the nodes of one kind only. -/
theorem kind_eq_of_mem_ranked {text : List Char} {k' : Kind}
    (h : parseFragment .pattern text = .ok s.fragment) (hs : s.BareDotsInContext)
    (ho : o ≠ .context) (hp : p ∈ s.ranked o k) (hp' : p ∈ s.ranked o k') :
    k = k' := by
  obtain ⟨m, hm, rfl, hkey, horigin⟩ := mem_ranked.mp hp
  obtain ⟨n, hn, rfl, hkey', -⟩ := mem_ranked.mp hp'
  have hm' := ownKey?_of_ranked hs ho hm hkey horigin
  have hn' := ownKey?_of_ranked hs ho hn hkey' horigin
  have : Std.Symm fun m n : Node => ∀ p, m.ownKey? = some p → n.ownKey? ≠ some p :=
    ⟨fun m n h p hn hm => h p hm hn⟩
  by_contra hne
  exact (pairwise_ownKeys h).forall hm hn (fun heq => hne (congrArg Node.kind heq)) p hm' hn'

end Side

/-! ### Groups -/

namespace Ranked

theorem insertPlace_eq (x : Pos × Kind) (xs : List (Pos × Kind)) :
    insertPlace x xs = xs.orderedInsert (fun a b => a.1 ≤ b.1) x := by
  induction xs with
  | nil => rfl
  | cons y ys ih => rw [insertPlace, List.orderedInsert, ih]

/-- Places are sorted by insertion, which keeps the order of equal ones. -/
theorem sortPlaces_eq (xs : List (Pos × Kind)) :
    sortPlaces xs = xs.insertionSort fun a b => a.1 ≤ b.1 := by
  induction xs with
  | nil => rfl
  | cons x xs ih =>
    rw [sortPlaces, List.foldr_cons, insertPlace_eq, ← sortPlaces, ih, List.insertionSort_cons]

theorem sortPlaces_perm (xs : List (Pos × Kind)) : (sortPlaces xs).Perm xs :=
  sortPlaces_eq xs ▸ List.perm_insertionSort _ xs

theorem pairwise_sortPlaces (xs : List (Pos × Kind)) :
    (sortPlaces xs).Pairwise fun a b => a.1 ≤ b.1 := by
  have : Std.Total fun a b : Pos × Kind => a.1 ≤ b.1 :=
    ⟨fun a b => Nat.le_total a.1.index b.1.index⟩
  have : IsTrans (Pos × Kind) fun a b => a.1 ≤ b.1 := ⟨fun _ _ _ hab hbc => Nat.le_trans hab hbc⟩
  exact sortPlaces_eq xs ▸ List.pairwise_insertionSort _ xs

variable {s : Side} {hunkOf : Origin → Option Nat} {hunk : Nat} {k : Kind}

/-- The places of a group, in the order of all ranked places. -/
theorem group_eq {o : Origin} (ho : ∀ o', hunkOf o' = some hunk ↔ o' = o) :
    group (ofSide s hunkOf) hunk k =
      (sortPlaces ((s.fragment.trees.flatMap Tree.nodes).filterMap fun n =>
        n.rankKey?.map fun p => (p, n.kind))).filterMap fun x =>
          if x.2 = k ∧ s.origin? x.1 = some o then some x.1 else none := by
  rw [group, ofSide, ← List.filterMap_eq_map, ← List.filterMap_eq_filter, List.filterMap_filterMap,
    List.filterMap_filterMap]
  refine List.filterMap_congr fun x _ => ?_
  obtain ⟨p, kind⟩ := x
  dsimp only
  cases horigin : s.origin? p with
  | none => simp
  | some o' =>
    rw [Option.bind_some]
    cases hhunk : hunkOf o' with
    | none =>
      have hne : o' ≠ o := fun heq => by
        rw [(ho o').mpr heq] at hhunk
        cases hhunk
      simp [hne]
    | some hunk' =>
      have hiff : hunk' = hunk ↔ o' = o := by rw [← ho o', hhunk, Option.some.injEq]
      by_cases hkind : kind = k <;> by_cases ho' : o' = o <;> simp [Option.guard, hiff, hkind, ho']

/-- A group has the places that are ranked. -/
theorem group_perm {o : Origin} (ho : ∀ o', hunkOf o' = some hunk ↔ o' = o) :
    (group (ofSide s hunkOf) hunk k).Perm (s.ranked o k) := by
  rw [group_eq ho, Side.ranked]
  refine ((sortPlaces_perm _).filterMap _).trans (List.Perm.of_eq ?_)
  rw [List.filterMap_filterMap]
  refine List.filterMap_congr fun n _ => ?_
  cases n.rankKey? with
  | none => simp
  | some p => by_cases hkind : n.kind = k <;> simp [Option.filter, hkind]

/-- **The places of a group are sorted.** -/
theorem pairwise_group {text : List Char} {o : Origin}
    (hs : parseFragment .pattern text = .ok s.fragment) (hdots : s.BareDotsInContext)
    (hcontext : o ≠ .context) (ho : ∀ o', hunkOf o' = some hunk ↔ o' = o) :
    (group (ofSide s hunkOf) hunk k).Pairwise (· < ·) := by
  have hnodup := (group_perm (k := k) ho).nodup_iff.mpr (Side.nodup_ranked hs hdots hcontext)
  have hsorted : (group (ofSide s hunkOf) hunk k).Pairwise (· ≤ ·) := by
    rw [group_eq ho]
    refine List.Pairwise.filterMap _ (fun a b hle p hp q hq => ?_) (pairwise_sortPlaces _)
    split at hp
    · split at hq
      · cases hp
        cases hq
        exact hle
      · cases hq
    · cases hp
  refine (hsorted.and hnodup).imp fun {p q} ⟨hle, hne⟩ => ?_
  exact Nat.lt_of_le_of_ne hle fun heq => hne (congrArg Pos.mk heq)

end Ranked

/-! ### Pairings -/

/-- What it means that a place of the replacement stands for a place of the pattern. -/
inductive Patch.StandsFor (p : Patch) (t q : Pos) : Prop where
  /-- It is on a context line, and the other one at the same line and column. -/
  | context {line col : Nat} (ht : p.plus.origin? t = some .context)
      (hline : p.plus.lines.lineCol? t = some (line, col))
      (hq : p.minus.lines.lineCol? q = some (line, col))
      (hmem : q ∈ p.minus.fragment.positions)
  /-- It is on an added line, the other one on a removed line of the same hunk, and both have the
  same rank among the places of one kind. -/
  | changed {hunk : Nat} {k : Kind} (ht : t ∈ p.plus.ranked (.added hunk) k)
      (hq : q ∈ p.minus.ranked (.removed hunk) k)
      (hrank : t.rankIn (p.plus.ranked (.added hunk) k) = q.rankIn
        (p.minus.ranked (.removed hunk) k))

namespace Pairing

variable {p : Patch} {t q : Pos}

theorem mem_of_get?_ofPatch (h : (ofPatch p).get? t = some q) :
    (t, q) ∈ contextPairs p.minus p.plus ∨ (t, q) ∈ changedPairs p.minus p.plus := by
  have hfold {ps pairs : List (Pos × Pos)} {x : Pos × Pos}
      (hx : x ∈ ps.foldl (fun pairs pair => insertPair pair pairs) pairs) : x ∈ ps ∨ x ∈ pairs := by
    induction ps generalizing pairs with
    | nil => exact .inr hx
    | cons y ps ih =>
      rcases ih hx with hx | hx
      · exact .inl (List.mem_cons_of_mem _ hx)
      · rcases mem_insertPair hx with rfl | hx
        · exact .inl List.mem_cons_self
        · exact .inr hx
  obtain ⟨x, hx, rfl⟩ := Option.map_eq_some_iff.mp h
  have ht : x.1 = t := by simpa using List.find?_some hx
  subst ht
  exact List.mem_append.mp ((hfold (List.mem_of_find?_eq_some hx)).resolve_right List.not_mem_nil)

theorem standsFor_of_mem_contextPairs (hlines : p.minus.lines = .ofText p.minus.text)
    (h : (t, q) ∈ contextPairs p.minus p.plus) : p.StandsFor t q := by
  obtain ⟨t', -, h⟩ := List.mem_filterMap.mp h
  split at h
  · rename_i horigin
    obtain ⟨q', hq, h⟩ := Option.bind_eq_some_iff.mp h
    obtain ⟨⟨line, col⟩, hline, hpos⟩ := Option.bind_eq_some_iff.mp hq
    split at h
    · rename_i hmem
      cases h
      exact .context (by simpa using horigin) hline (Side.lineCol?_of_posAt? hlines hpos)
        (by simpa using hmem)
    · cases h
  · cases h

/-- Paired places of a hunk have the same rank. -/
theorem standsFor_of_mem_pairs {addedOf removedOf : Origin → Option Nat} {text text' : List Char}
    (hadded : ∀ hunk o, addedOf o = some hunk ↔ o = .added hunk)
    (hremoved : ∀ hunk o, removedOf o = some hunk ↔ o = .removed hunk)
    (hplus : parseFragment .pattern text = .ok p.plus.fragment)
    (hminus : parseFragment .pattern text' = .ok p.minus.fragment)
    (hplus' : p.plus.BareDotsInContext) (hminus' : p.minus.BareDotsInContext)
    (h : (t, q) ∈ Ranked.pairs (Ranked.ofSide p.plus addedOf) (Ranked.ofSide p.minus removedOf)) :
    p.StandsFor t q := by
  obtain ⟨⟨hunk, k⟩, -, h⟩ := List.mem_flatMap.mp h
  obtain ⟨i, hi⟩ := List.mem_iff_getElem?.mp h
  obtain ⟨ht, hq⟩ := List.getElem?_zip_eq_some.mp hi
  have hplusPerm := Ranked.group_perm (s := p.plus) (k := k) (hadded hunk)
  have hminusPerm := Ranked.group_perm (s := p.minus) (k := k) (hremoved hunk)
  refine .changed (hplusPerm.subset (List.mem_of_getElem? ht))
    (hminusPerm.subset (List.mem_of_getElem? hq)) ?_
  rw [← Pos.rankIn_of_perm hplusPerm, ← Pos.rankIn_of_perm hminusPerm]
  rw [Pos.rankIn_eq (Ranked.pairwise_group hplus hplus' (by simp) (hadded hunk)) ht,
    Pos.rankIn_eq (Ranked.pairwise_group hminus hminus' (by simp) (hremoved hunk)) hq]

theorem standsFor_of_mem_changedPairs {text text' : List Char}
    (hplus : parseFragment .pattern text = .ok p.plus.fragment)
    (hminus : parseFragment .pattern text' = .ok p.minus.fragment)
    (hplus' : p.plus.BareDotsInContext) (hminus' : p.minus.BareDotsInContext)
    (h : (t, q) ∈ changedPairs p.minus p.plus) : p.StandsFor t q :=
  standsFor_of_mem_pairs (fun _ o => by cases o <;> simp) (fun _ o => by cases o <;> simp) hplus
    hminus hplus' hminus' h

/-- **Places of the replacement stand for places of the pattern on the same line, or of the same
rank**, if no wildcard that is a parameter or a field without a name is on a changed line.  Within a
hunk, no two wildcards stand for the same one, and they stand in the order of those they stand
for. -/
theorem standsFor_of_get? {text : List Char} (hp : p ∈ (PatchFile.read text).patches)
    (hplus : p.plus.BareDotsInContext) (hminus : p.minus.BareDotsInContext) :
    (∀ t q, (ofPatch p).get? t = some q → p.StandsFor t q) ∧
      ∀ hunk t t' q q', t ∈ p.plus.ranked (.added hunk) .dots →
      t' ∈ p.plus.ranked (.added hunk) .dots →
        (ofPatch p).get? t = some q → (ofPatch p).get? t' = some q' →
        (q = q' → t = t') ∧ (t < t' ↔ q < q') := by
  obtain ⟨body, -, hread⟩ := PatchFile.exists_body_of_mem hp
  obtain ⟨plus, hplusText, hplusEq⟩ := Side.exists_of_read hread.plus
  obtain ⟨minus, hminusText, hminusEq⟩ := Side.exists_of_read hread.minus
  obtain rfl : p.plus.fragment = plus := by rw [hplusEq]
  obtain rfl : p.minus.fragment = minus := by rw [hminusEq]
  have hlines : p.minus.lines = .ofText p.minus.text := by rw [hminusEq]
  have hstands (t q : Pos) (h : (ofPatch p).get? t = some q) : p.StandsFor t q := by
    rcases mem_of_get?_ofPatch h with h | h
    · exact standsFor_of_mem_contextPairs hlines h
    · exact standsFor_of_mem_changedPairs hplusText hminusText hplus hminus h
  have hrank {hunk : Nat} {t q : Pos} (ht : t ∈ p.plus.ranked (.added hunk) .dots)
      (h : (ofPatch p).get? t = some q) : q ∈ p.minus.ranked (.removed hunk) .dots ∧
        t.rankIn (p.plus.ranked (.added hunk) .dots) =
        q.rankIn (p.minus.ranked (.removed hunk) .dots) := by
    obtain ⟨-, -, -, -, horigin⟩ := Side.mem_ranked.mp ht
    cases hstands t q h with
    | context hcontext =>
      rw [horigin] at hcontext
      cases hcontext
    | changed ht' hq hrank =>
      obtain ⟨-, -, -, -, horigin'⟩ := Side.mem_ranked.mp ht'
      rw [horigin] at horigin'
      cases horigin'
      obtain rfl := Side.kind_eq_of_mem_ranked (o := .added hunk) hplusText hplus nofun ht ht'
      exact ⟨hq, hrank⟩
  refine ⟨hstands, fun hunk t t' q q' ht ht' h h' => ?_⟩
  obtain ⟨hq, hrank₁⟩ := hrank ht h
  obtain ⟨hq', hrank₂⟩ := hrank ht' h'
  refine ⟨?_, ?_⟩
  · rintro rfl
    exact Pos.rankIn_inj ht ht' (hrank₁.trans hrank₂.symm)
  · rw [← Pos.rankIn_lt_iff ht ht', hrank₁, hrank₂, Pos.rankIn_lt_iff hq hq']

/-- A name on a context line, and a wildcard on an added line. -/
theorem standsFor_of_get?_call : ∃ p : Patch, p.plus.BareDotsInContext ∧ p.minus.BareDotsInContext ∧
    (ofPatch p).get? (.atOffset 0) = some (.atOffset 0) ∧ p.StandsFor (.atOffset 0) (.atOffset 0) ∧
      (ofPatch p).get? (.atOffset 13) = some (.atOffset 12) ∧ p.StandsFor (.atOffset 13)
      (.atOffset 12) := by
  have hread : (PatchFile.read "@@\n@@\n a(b)\n-foo(x, ...)\n+bar(x, ...)\n".toList).patches.any
      fun p =>
      p.plus.BareDotsInContext ∧ p.minus.BareDotsInContext ∧
      (ofPatch p).get? (.atOffset 0) = some (.atOffset 0) ∧
        (ofPatch p).get? (.atOffset 13) = some (.atOffset 12) := by
    decide +kernel
  obtain ⟨p, hp, hcheck⟩ := List.any_eq_true.mp hread
  obtain ⟨hplus, hminus, h₁, h₂⟩ := of_decide_eq_true hcheck
  obtain ⟨hstands, -⟩ := standsFor_of_get? hp hplus hminus
  exact ⟨p, hplus, hminus, h₁, hstands _ _ h₁, h₂, hstands _ _ h₂⟩

end Pairing

end Graft
