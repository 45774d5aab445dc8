import Graft.Proofs.Match.Literal
import Graft.Proofs.Recipe.Mirror
import Graft.Proofs.Tree.Conforms

/-! # Patterns of plain code

A value without wildcards and declared metavariables is **ground** (`Tree.IsGround`).  None of the
special forms of patterns is recognised in it, so its pattern is as structural as the value itself
(`Tree.IsGround.ofTree_node`, `Tree.IsGround.ofTree_list`); all that is left are the patterns of the
comments above nodes, which match anything.

The pattern of a ground value therefore compares what `Tree.sameCode` compares, comments aside: it
matches the values that spell the same code, whatever was captured before
(`Tree.IsGround.match?_iff_sameCode`).
-/

namespace Graft

variable {metas : MetaTable}

/-- Whether a value holds no wildcard and no metavariable. -/
def Tree.IsGround (metas : MetaTable) (t : Tree) : Prop :=
  ∀ n ∈ t.nodes, n.kind ≠ .dots ∧ n.metavar? metas = none

instance (t : Tree) : Decidable (t.IsGround metas) :=
  inferInstanceAs (Decidable (∀ n ∈ t.nodes, n.kind ≠ .dots ∧ n.metavar? metas = none))

namespace Tree.IsGround

variable {k : Kind} {fs ts : List Tree} {t : Tree}

theorem item (h : (list ts).IsGround metas) (ht : t ∈ ts) : t.IsGround metas := fun n hn =>
  h n (nodes_list ts ▸ (subset_of_mem ht).2 hn)

theorem field (h : (node k fs).IsGround metas) (ht : t ∈ fs) : t.IsGround metas := fun n hn =>
  h n (nodes_node k fs ▸ List.mem_cons_of_mem _ ((subset_of_mem ht).2 hn))

theorem node? {n m : Node} {l : Label} (h : n.tree.IsGround metas) (hm : n.node? l = some m) :
    m.kind ≠ .dots :=
  (h.field (Node.mem_fields_of_node? hm) m (self_mem_nodes m)).1

/-! ### No special form is recognised -/

theorem wildcard?_eq_none (h : t.IsGround metas) : t.wildcard? = none := by
  unfold wildcard?
  split
  · rfl
  · rename_i n hn
    obtain rfl := tree_of_node? hn
    rw [if_neg (h n (self_mem_nodes n)).1]
    split
    · cases htype : n.node? .type with
      | none => rfl
      | some type => exact if_neg (h.node? htype)
    · rfl

theorem elidedFields?_eq_none {n : Node} (h : n.tree.IsGround metas) : n.elidedFields? = none := by
  unfold Node.elidedFields?
  split
  · rename_i only hlist
    obtain ⟨ts, hts, honly⟩ := Node.exists_of_mem_list (n := n) (l := .list)
      (hlist ▸ List.mem_cons_self)
    exact ((h.field hts).item honly).wildcard?_eq_none
  · rfl

theorem elidedHeader?_eq_none {n : Node} (h : n.tree.IsGround metas) : n.elidedHeader? = none := by
  unfold Node.elidedHeader?
  split
  · cases hcond : n.node? .cond with
    | none => rfl
    | some cond => exact if_neg (h.node? hcond)
  · rfl

theorem ofItems_eq (h : (list ts).IsGround metas) :
    PatternItem.cut (Pattern.ofItems metas ts) = (ts.map (Pattern.ofTree metas), []) := by
  induction ts with
  | nil => rfl
  | cons t ts ih =>
    have hrest : (list ts).IsGround metas := fun n hn => by
      rw [nodes_list] at hn
      exact h n (nodes_list _ ▸ List.mem_append_right _ hn)
    rw [Pattern.ofItems, (h.item List.mem_cons_self).wildcard?_eq_none, PatternItem.cut, ih hrest]
    rfl

theorem ofTree_list (h : (list ts).IsGround metas) :
    Pattern.ofTree metas (list ts) = .list (ts.map (Pattern.ofTree metas)) := by
  rw [Pattern.ofTree, h.ofItems_eq]

theorem ofTree_node (h : (node k fs).IsGround metas) :
    Pattern.ofTree metas (node k fs) = .node k
      (Pattern.ofFields metas (.ofDoc ⟨k, fs⟩) k.fields fs) := by
  have hn : (⟨k, fs⟩ : Node).tree.IsGround metas := h
  obtain ⟨hdots, hmetavar⟩ := hn ⟨k, fs⟩ (self_mem_nodes _)
  rw [Pattern.ofTree, hmetavar, hn.elidedFields?_eq_none, hn.elidedHeader?_eq_none]
  exact if_neg hdots

end Tree.IsGround

/-! ### What is compared -/

namespace Pattern

theorem match?_ofDoc (n : Node) (t : Tree) (c : Captures) :
    ((ofDoc n).match? t c).isSome = true := by
  unfold ofDoc
  split <;> rfl

/-- Values are matched one by one; what the first one adds to the captures does not matter if it
does not matter for the others. -/
theorem isSome_matchAll_cons_iff {replay : Tree → Tree → Bool} {p : Pattern}
    {ps : List Pattern} {t : Tree} {ts : List Tree} {c : Captures} {P Q : Prop}
    (hhead : (matchWith replay p t c).isSome = true ↔ P)
    (htail : ∀ e, (matchAll replay ps ts e).isSome = true ↔ Q) :
    (matchAll replay (p :: ps) (t :: ts) c).isSome = true ↔ P ∧ Q := by
  rw [matchAll, ← hhead]
  cases matchWith replay p t c with
  | none => exact ⟨by rintro ⟨⟩, by rintro ⟨⟨⟩, -⟩⟩
  | some e => exact (htail e).trans (and_iff_right rfl).symm

end Pattern

namespace Tree

open Pattern

theorem sameCode_list {ts us : List Tree} : (list ts).SameCode (list us) ↔ SameCodeAll ts us :=
  agreeAllBy_iff

theorem sameCode_node {k l : Kind} {ts us : List Tree} :
    (node k ts).SameCode (node l us) ↔ k = l ∧ SameCodeAll ts us :=
  Node.sameCode_iff (m := ⟨k, ts⟩) (n := ⟨l, us⟩)

theorem sameCodeAll_cons {t u : Tree} {ts us : List Tree} :
    SameCodeAll (t :: ts) (u :: us) ↔ t.SameCode u ∧ SameCodeAll ts us :=
  List.forall₂_cons

mutual

/-- **The pattern of plain code matches the values that spell the same code**, comments above nodes
aside. -/
theorem IsGround.matchWith_iff (p : Tree) (hp : p.IsGround metas) {v : Tree}
    (hv : v.conforms = true) (c : Captures) :
    (matchWith replays (ofTree metas p) v c).isSome = true ↔
      p.undocumented.SameCode v.undocumented := by
  match p with
  | nil => cases v <;> exact ⟨id, id⟩
  | pos p =>
    cases v with
    | pos q => cases hp : p.isValid <;> cases hq : q.isValid <;>
        simp [ofTree, matchWith, undocumented, SameCode, sameCode, agreeBy, hp, hq]
    | _ => exact ⟨nofun, nofun⟩
  | str s =>
    cases v with
    | str u => simp [ofTree, matchWith, undocumented, SameCode, sameCode, agreeBy]
    | _ => exact ⟨nofun, nofun⟩
  | tok s =>
    cases v with
    | tok u => simp [ofTree, matchWith, undocumented, SameCode, sameCode, agreeBy]
    | _ => exact ⟨nofun, nofun⟩
  | list ps =>
    rw [hp.ofTree_list]
    cases v with
    | list ts =>
      rw [matchWith, undocumented, undocumented, sameCode_list]
      exact IsGround.matchAll_iff ps (fun _ hmem => hp.item hmem) hv c
    | _ => exact ⟨nofun, nofun⟩
  | node k ps =>
    rw [hp.ofTree_node]
    cases v with
    | node l ts =>
      obtain ⟨hlength, -, hts⟩ := conforms_node.mp hv
      rw [matchWith, undocumented, undocumented, sameCode_node]
      by_cases hkind : k = l
      · subst hkind
        rw [if_pos rfl, eq_self, true_and]
        exact IsGround.matchFields_iff ⟨k, ps⟩ k.fields ps (fun _ hmem => hp.field hmem) hts hlength
          c
      · rw [if_neg hkind]
        exact ⟨nofun, fun h => absurd h.1 hkind⟩
    | _ => exact ⟨nofun, nofun⟩

theorem IsGround.matchAll_iff (ps : List Tree) (hps : ∀ p ∈ ps, p.IsGround metas) {ts : List Tree}
    (hts : conformsAll ts = true) (c : Captures) :
    (matchAll replays (ps.map (ofTree metas)) ts c).isSome = true ↔
      SameCodeAll (undocumentedAll ps) (undocumentedAll ts) := by
  match ps, ts with
  | [], [] => exact ⟨fun _ => .nil, fun _ => rfl⟩
  | [], _ :: _ => exact ⟨nofun, nofun⟩
  | _ :: _, [] => exact ⟨nofun, nofun⟩
  | p :: ps, t :: ts =>
    obtain ⟨hp, hps⟩ := List.forall_mem_cons.mp hps
    obtain ⟨ht, hts⟩ := Bool.and_eq_true_iff.mp hts
    rw [undocumentedAll, undocumentedAll, sameCodeAll_cons]
    exact isSome_matchAll_cons_iff (IsGround.matchWith_iff p hp ht c)
      (IsGround.matchAll_iff ps hps hts)

theorem IsGround.matchFields_iff (n : Node) (fs : List Field) (ps : List Tree)
    (hps : ∀ p ∈ ps, p.IsGround metas) {ts : List Tree} (hts : ∀ t ∈ ts, t.conforms = true)
    (hlength : ts.length = fs.length) (c : Captures) :
    (matchAll replays (ofFields metas (.ofDoc n) fs ps) ts c).isSome = true ↔
      SameCodeAll (undocumentedFields fs ps) (undocumentedFields fs ts) := by
  match fs, ps, ts with
  | [], _, [] =>
    exact ⟨fun _ => by simp [undocumentedFields], fun _ => by simp [ofFields, matchAll]⟩
  | _ :: _, [], _ :: _ => exact ⟨nofun, nofun⟩
  | f :: fs, p :: ps, t :: ts =>
    obtain ⟨hp, hps⟩ := List.forall_mem_cons.mp hps
    obtain ⟨ht, hts⟩ := List.forall_mem_cons.mp hts
    have hhead : (matchWith replays (if f.slot = .doc then .ofDoc n else ofTree metas p) t
        c).isSome = true ↔
        (if f.slot = .doc then nil else p.undocumented).SameCode
          (if f.slot = .doc then nil else t.undocumented) := by
      by_cases hdoc : f.slot = .doc
      · rw [if_pos hdoc, if_pos hdoc, if_pos hdoc]
        exact ⟨fun _ => .refl _, fun _ => match?_ofDoc n t c⟩
      · rw [if_neg hdoc, if_neg hdoc, if_neg hdoc]
        exact IsGround.matchWith_iff p hp ht c
    rw [ofFields, undocumentedFields, undocumentedFields, sameCodeAll_cons]
    exact isSome_matchAll_cons_iff hhead
      (IsGround.matchFields_iff n fs ps hps hts (Nat.succ.inj hlength))

end

/-- **The pattern of plain code matches exactly that code**: the values that spell the same code,
comments above nodes aside, after any captures. -/
theorem IsGround.match?_iff_sameCode {p v : Tree} (hp : p.IsGround metas) (hv : v.conforms = true)
    (c : Captures) :
    ((ofTree metas p).match? v c).isSome = true ↔ p.undocumented.sameCode v.undocumented = true :=
  IsGround.matchWith_iff p hp hv c

/-- A type specification, and the same one further down, below a comment. -/
theorem match?_typeSpec_below_comment :
    let metas : MetaTable := fun name => if name = "x" then some .expression else none
    let spec (doc : Tree) (i : Nat) : Tree :=
      .node .typeSpec [doc, .ident ⟨i⟩ "T", .pos .none, .ident ⟨i + 2⟩ "int"]
    let comment : Tree := .node .commentGroup [.list [.node .comment [.pos ⟨11⟩, .str "// T"]]]
    (spec .nil 1).IsGround metas ∧ (spec comment 20).conforms = true ∧
      ((ofTree metas (spec .nil 1)).match? (spec comment 20) .empty).isSome = true := by
  intro metas spec comment
  have hground : (spec .nil 1).IsGround metas := by decide
  have hconforms : (spec comment 20).conforms = true := by decide
  exact ⟨hground, hconforms, (hground.match?_iff_sameCode hconforms .empty).mpr (by decide)⟩

end Tree

end Graft
