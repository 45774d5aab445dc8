import Graft.Proofs.Grammar.Regular
import Graft.Proofs.Match.Mirror
import Graft.Recipe.Compile
import Mathlib.Data.List.Nodup

/-! # Pattern and template of one tree

The template of a tree mirrors its pattern if every place of it stands for itself
(`Tree.IsRegular.mirrors`), and the pattern binds no key twice (`Tree.IsRegular.nodup_keys`).  The
same is true of a stretch of a container with the runs around it
(`Tree.AreRegular.mirroredBy_ofWindow`).

The keys of a pattern are places of its tree and metavariables in it (`Key.OccursIn`), and all
places of a tree that was read are different.  A comment above a node has no place in the tree, as
there is none; it is known by the place where the node begins, so no two nodes with comments may
begin at the same place.
-/

namespace Graft

/-- **Induction on trees**: what holds of a value if it holds of its items or fields. -/
theorem Tree.induction {P : Tree → Prop} (hnil : P .nil) (hpos : ∀ p, P (.pos p))
    (hstr : ∀ s, P (.str s)) (htok : ∀ t, P (.tok t)) (hlist : ∀ ts, (∀ t ∈ ts, P t) → P (.list ts))
    (hnode : ∀ k fs, (∀ t ∈ fs, P t) → P (.node k fs)) (t : Tree) : P t := by
  exact @Tree.rec P (fun ts => ∀ t ∈ ts, P t) hnil hpos hstr htok hlist hnode nofun
    (fun t ts ht hts => List.forall_mem_cons.mpr ⟨ht, hts⟩) t

/-! ### Nodes that were read -/

namespace Node

variable {n : Node} {l : Label}

theorem get_eq_nil_or_mem (n : Node) (l : Label) : n.get l = .nil ∨ n.get l ∈ n.fields := by
  unfold get
  split
  · rename_i i _
    cases hi : n.fields[i]? with
    | none => exact .inl rfl
    | some t => exact .inr (List.mem_of_getElem? hi)
  · exact .inl rfl

theorem mem_fields_of_node? {m : Node} (h : n.node? l = some m) : m.tree ∈ n.fields := by
  rw [Tree.tree_of_node? h]
  rcases n.get_eq_nil_or_mem l with hnil | hmem
  · rw [node?, hnil] at h
    cases h
  · exact hmem

theorem exists_of_mem_list {t : Tree} (h : t ∈ n.list l) : ∃ ts, .list ts ∈ n.fields ∧ t ∈ ts := by
  rw [list] at h
  rcases n.get_eq_nil_or_mem l with hnil | hmem
  · rw [hnil] at h
    cases h
  · cases hget : n.get l with
    | list ts =>
      rw [hget] at h hmem
      exact ⟨ts, hmem, h⟩
    | _ =>
      rw [hget] at h
      cases h

end Node

/-- The places and nodes of a part of a value are places and nodes of the value. -/
theorem Tree.subset_of_mem {t : Tree} {ts : List Tree} (h : t ∈ ts) :
    t.positions ⊆ positionsAll ts ∧ t.nodes ⊆ nodesAll ts :=
  ⟨fun _ hp => mem_positionsAll.mpr ⟨t, h, hp⟩, fun _ hn => mem_nodesAll.mpr ⟨t, h, hn⟩⟩

theorem Node.start_mem_of_mem {n : Node} {t : Tree} (hn : n ∈ t.nodes)
    (h : n.start.isValid = true) :
    n.start ∈ t.positions :=
  t.positions_subset_of_mem_nodes n hn (Tree.start_mem_positions h)

namespace Tree

variable {t : Tree} {p : Pos}

theorem self_mem_nodes (n : Node) : n ∈ n.tree.nodes := by
  rw [Node.tree, nodes_node]
  exact List.mem_cons_self

/-- A list element is a wildcard for a wildcard in it. -/
theorem exists_dots_of_wildcard? (h : t.wildcard? = some p) :
    ∃ n ∈ t.nodes, n.kind = .dots ∧ n.start = p := by
  unfold wildcard? at h
  split at h
  · cases h
  · rename_i n hn
    obtain rfl := tree_of_node? hn
    split at h
    · cases h
      exact ⟨n, self_mem_nodes n, ‹_›, rfl⟩
    · simp only [Option.ite_none_right_eq_some] at h
      obtain ⟨type, htype, h⟩ := Option.bind_eq_some_iff.mp h.2
      simp only [Option.ite_none_right_eq_some, Option.some.injEq] at h
      refine ⟨type, ?_, h⟩
      rw [Node.tree, nodes_node]
      refine List.mem_cons_of_mem _ ((subset_of_mem (Node.mem_fields_of_node? htype)).2 ?_)
      exact self_mem_nodes type

/-- A wildcard stands in its list element. -/
theorem mem_positions_of_wildcard? (h : t.wildcard? = some p)
    (ht : ∀ n ∈ t.nodes, n.start.isValid = true) :
    p ∈ t.positions := by
  obtain ⟨n, hn, -, rfl⟩ := exists_dots_of_wildcard? h
  exact Node.start_mem_of_mem hn (ht n hn)

end Tree

namespace Node

variable {n : Node} {p : Pos}

theorem mem_positions_of_elidedFields? (h : n.elidedFields? = some p)
    (hn : ∀ m ∈ n.tree.nodes, m.start.isValid = true) : p ∈ n.tree.positions := by
  unfold elidedFields? at h
  split at h
  · rename_i only hlist
    obtain ⟨ts, hts, honly⟩ := exists_of_mem_list (n := n) (l := .list) (hlist ▸ List.mem_cons_self)
    obtain ⟨hpositions, hnodes⟩ := Tree.subset_of_mem hts
    rw [Tree.positions_list] at hpositions
    rw [Tree.nodes_list] at hnodes
    obtain ⟨hpositions', hnodes'⟩ := Tree.subset_of_mem honly
    rw [tree, Tree.positions_node]
    refine hpositions (hpositions' (Tree.mem_positions_of_wildcard? h fun m hm => hn m ?_))
    rw [tree, Tree.nodes_node]
    exact List.mem_cons_of_mem _ (hnodes (hnodes' hm))
  · cases h

theorem kind_of_elidedHeader? (h : n.elidedHeader? = some p) : n.kind = .forStmt := by
  unfold elidedHeader? at h
  simp only [Option.ite_none_right_eq_some, Bool.and_eq_true, decide_eq_true_eq] at h
  exact h.1.1.1

/-- The fields of a loop with a wildcard for its header. -/
theorem IsRegular.exists_of_elidedHeader? (hn : n.IsRegular) (h : n.elidedHeader? = some p) :
    ∃ x y, ∃ cond : Node, ∃ z ps, n.fields = [x, y, cond.tree, z, n.get .body] ∧ p = cond.start ∧
      n.get .body = .node .blockStmt ps := by
  have hkind := kind_of_elidedHeader? h
  have hfull := hn.full
  have hblock := hn.body hkind
  obtain ⟨k, fs⟩ := n
  dsimp only at hkind hfull ⊢
  subst hkind
  match fs, hfull with
  | [x, y, c, z, body], _ =>
    have hbody : (⟨.forStmt, [x, y, c, z, body]⟩ : Node).get .body = body := rfl
    unfold elidedHeader? at h
    simp only [Option.ite_none_right_eq_some] at h
    obtain ⟨cond, hcond, hp⟩ := Option.bind_eq_some_iff.mp h.2
    simp only [Option.ite_none_right_eq_some, Option.some.injEq] at hp
    have hc : cond.tree = c := Tree.tree_of_node? hcond
    rw [hbody] at hblock ⊢
    cases body with
    | node k gs =>
      obtain rfl : k = .blockStmt := by simpa [Tree.isKind, Tree.kind?] using hblock
      exact ⟨x, y, cond, z, gs, by rw [hc], hp.2.symm, rfl⟩
    | _ => cases hblock

/-- A node is known by the place where it begins. -/
theorem IsRegular.docKey?_eq (h : n.IsRegular) : n.docKey? = some n.start := by
  have hfind (fs : List Field) (ts : List Tree) (hlength : ts.length = fs.length)
      (hdocs : ∀ x ∈ fs.zip ts, x.1.slot = .doc → x.2 = .nil)
      (hvalid : (Tree.startAll ts).isValid = true) :
      (((fs.zip ts).filter (·.1.slot != .doc)).map (·.2.start)).find? (·.isValid) =
        some (Tree.startAll ts) := by
    induction fs generalizing ts with
    | nil =>
      cases ts with
      | nil => cases hvalid
      | cons => cases hlength
    | cons f fs ih =>
      cases ts with
      | nil => cases hlength
      | cons t ts =>
        rw [List.zip_cons_cons, List.forall_mem_cons] at hdocs
        rw [Tree.startAll] at hvalid ⊢
        have ih := ih ts (by simpa using hlength) hdocs.2
        by_cases hf : f.slot = .doc
        · have ht := hdocs.1 hf
          dsimp only at ht
          subst ht
          rw [if_neg (by nofun)] at hvalid ⊢
          simpa [hf] using ih hvalid
        · by_cases ht : t.start.isValid = true
          · simp [hf, ht]
          · rw [if_neg ht] at hvalid ⊢
            simpa [hf, ht] using ih hvalid
  exact hfind n.kind.fields n.fields h.full h.undocumented h.placed

end Node

/-! ### How a node is compiled -/

theorem Tree.misplacedDotsFields_eq_map (metas : MetaTable) (ts : List Tree) :
    misplacedDotsFields metas ts = ts.map (misplacedDots metas) := by
  induction ts with
  | nil => rfl
  | cons t ts ih => rw [misplacedDotsFields, ih, List.map_cons]

/-- The form of the pattern and of the template of a node without misplaced wildcards. -/
inductive Node.Compiled (metas : MetaTable) (a : Pairing) (n : Node) :
    Pattern → Template → Prop where
  | metavar {name : String} {kind : MetaKind} (h : n.metavar? metas = some (name, kind)) :
    Compiled metas a n (.metavar name kind) (.metavar name n.start)
  | fieldList {p : Pos} (h : n.elidedFields? = some p) :
    Compiled metas a n (.fieldList p) (.fieldList p (a.counterpart? p))
  | loop {p : Pos} (h : n.elidedHeader? = some p) (hdots : (n.get .body).misplacedDots metas = []) :
    Compiled metas a n (.loop p (.ofTree metas (n.get .body)))
      (.loop p (a.counterpart? p) (.ofTree metas a (n.get .body)))
  | plain (hdots : ∀ t ∈ n.fields, t.misplacedDots metas = []) :
    Compiled metas a n (.node n.kind (Pattern.ofFields metas (.ofDoc n) n.kind.fields n.fields))
      (.node n.kind (Template.ofFields metas a (n.docKey?.bind a.counterpart?)
        n.kind.fields n.fields))

variable {metas : MetaTable} {a : Pairing}

/-- The pattern of a field is the pattern of its value. -/
theorem Pattern.ofFields_getElem? (doc : Pattern) {fs : List Field} {ts : List Tree}
    {i : Nat} {f : Field} (hlength : ts.length = fs.length) (hf : fs[i]? = some f)
    (hslot : f.slot ≠ .doc) :
    (ofFields metas doc fs ts)[i]?.getD .nil = ofTree metas (ts[i]?.getD .nil) := by
  induction fs generalizing ts i with
  | nil => cases hf
  | cons g fs ih =>
    cases ts with
    | nil => cases hlength
    | cons t ts =>
      rw [ofFields]
      cases i with
      | zero =>
        cases hf
        simp [hslot]
      | succ i => exact ih (by simpa using hlength) hf

theorem Template.ofFields_getElem? (key : Option Pos) {fs : List Field} {ts : List Tree}
    {i : Nat} {f : Field} (hlength : ts.length = fs.length) (hf : fs[i]? = some f)
    (hslot : f.slot ≠ .doc) :
    (ofFields metas a key fs ts)[i]?.getD .nil = ofTree metas a (ts[i]?.getD .nil) := by
  induction fs generalizing ts i with
  | nil => cases hf
  | cons g fs ih =>
    cases ts with
    | nil => cases hlength
    | cons t ts =>
      rw [ofFields]
      cases i with
      | zero =>
        cases hf
        simp [hslot]
      | succ i => exact ih (by simpa using hlength) hf

theorem Node.IsRegular.compiled {n : Node} (h : n.IsRegular)
    (hdots : n.tree.misplacedDots metas = []) :
    n.Compiled metas a (.ofTree metas n.tree) (.ofTree metas a n.tree) := by
  obtain ⟨k, fs⟩ := n
  rw [tree, Tree.misplacedDots] at hdots
  dsimp only at hdots
  rw [tree, Pattern.ofTree, Template.ofTree]
  dsimp only
  cases hmeta : (⟨k, fs⟩ : Node).metavar? metas with
  | some x => exact .metavar hmeta
  | none =>
    dsimp only
    cases hfields : (⟨k, fs⟩ : Node).elidedFields? with
    | some p => exact .fieldList hfields
    | none =>
      dsimp only
      rw [hmeta, hfields, if_neg (by rintro ⟨⟩)] at hdots
      cases hheader : (⟨k, fs⟩ : Node).elidedHeader? with
      | some p =>
        have hkind := kind_of_elidedHeader? hheader
        dsimp only at hkind
        subst hkind
        have hbody : (⟨.forStmt, fs⟩ : Node).get .body = fs[4]?.getD .nil := rfl
        have hindex : Kind.forStmt.indexOf? .body = some 4 := rfl
        rw [hheader, if_pos (by rfl), hindex, Option.elim_some, Tree.misplacedDotsFields_eq_map,
          List.getElem?_map] at hdots
        dsimp only
        rw [hindex, Option.elim_some, Option.elim_some, Pattern.ofFields_getElem? _ h.full
          rfl (by decide), Template.ofFields_getElem? _ h.full rfl (by decide), ← hbody]
        refine .loop hheader ?_
        rw [hbody]
        cases hfs : fs[4]? with
        | none => rfl
        | some t => simpa [hfs] using hdots
      | none =>
        rw [hheader, if_neg (by rintro ⟨⟩)] at hdots
        dsimp only
        split at hdots
        · cases hdots
        · rename_i hk
          rw [if_neg hk, if_neg hk]
          refine .plain fun t ht => ?_
          rw [Tree.misplacedDotsFields_eq_map] at hdots
          exact List.flatten_eq_nil_iff.mp hdots _ (List.mem_map_of_mem ht)

/-! ### Mirrors -/

/-- Whether a value can be put back where it was found: its nodes are regular, its places stand for
themselves, and its wildcards stand where they may. -/
structure Tree.IsRegular (metas : MetaTable) (a : Pairing) (t : Tree) : Prop where
  nodes : ∀ n ∈ t.nodes, n.IsRegular
  paired : ∀ p ∈ t.positions, a.counterpart? p = some p
  dots : t.misplacedDots metas = []

/-- Whether the items of a list can be put back where they were found. -/
structure Tree.AreRegular (metas : MetaTable) (a : Pairing) (ts : List Tree) : Prop where
  nodes : ∀ n ∈ nodesAll ts, n.IsRegular
  paired : ∀ p ∈ positionsAll ts, a.counterpart? p = some p
  dots : misplacedDotsItems metas ts = []

namespace Tree

variable {t : Tree} {ts : List Tree}

theorem AreRegular.of_list (h : (list ts).IsRegular metas a) : AreRegular metas a ts where
  nodes := nodes_list ts ▸ h.nodes
  paired := positions_list ts ▸ h.paired
  dots := by
    have hdots := h.dots
    rwa [misplacedDots] at hdots

theorem AreRegular.item (h : AreRegular metas a ts) (ht : t ∈ ts) (hwildcard : t.wildcard? = none) :
    t.IsRegular metas a where
  nodes n hn := h.nodes n ((subset_of_mem ht).2 hn)
  paired p hp := h.paired p ((subset_of_mem ht).1 hp)
  dots := by
    have hdots := h.dots
    clear h
    induction ts with
    | nil => cases ht
    | cons u ts ih =>
      rw [misplacedDotsItems, List.append_eq_nil_iff] at hdots
      rcases List.mem_cons.mp ht with rfl | ht
      · simpa [hwildcard] using hdots.1
      · exact ih ht hdots.2

/-- A wildcard among the items of a list stands at a place of the list. -/
theorem AreRegular.mem_positions_of_wildcard? (h : AreRegular metas a ts) (ht : t ∈ ts) {p : Pos}
    (hp : t.wildcard? = some p) : p ∈ t.positions :=
  Tree.mem_positions_of_wildcard? hp fun n hn => (h.nodes n ((subset_of_mem ht).2 hn)).placed

theorem IsRegular.field {k : Kind} {fs : List Tree} (h : (node k fs).IsRegular metas a)
    (ht : t ∈ fs) (hdots : t.misplacedDots metas = []) : t.IsRegular metas a where
  nodes n hn := h.nodes n (by
    rw [nodes_node]
    exact List.mem_cons_of_mem _ ((subset_of_mem ht).2 hn))
  paired p hp := h.paired p (by
    rw [positions_node]
    exact (subset_of_mem ht).1 hp)
  dots := hdots

theorem IsRegular.self {k : Kind} {fs : List Tree} (h : (node k fs).IsRegular metas a) :
    (⟨k, fs⟩ : Node).IsRegular := h.nodes _ (self_mem_nodes ⟨k, fs⟩)

theorem IsRegular.placed (h : t.IsRegular metas a) : ∀ n ∈ t.nodes, n.start.isValid = true :=
  fun n hn => (h.nodes n hn).placed

/-- The wildcard of a loop header stands in the loop and not in its body. -/
theorem IsRegular.elidedHeader {k : Kind} {fs : List Tree} {p : Pos}
    (h : (node k fs).IsRegular metas a) (hp : (⟨k, fs⟩ : Node).elidedHeader? = some p) :
    ((node k fs).positions.Nodup → p ∉ ((⟨k, fs⟩ : Node).get .body).positions) ∧
      p ∈ (node k fs).positions ∧ (⟨k, fs⟩ : Node).get .body ∈ fs := by
  obtain ⟨x, y, cond, z, gs, hfields, rfl, -⟩ := h.self.exists_of_elidedHeader? hp
  generalize (⟨k, fs⟩ : Node).get .body = body at hfields ⊢
  dsimp only at hfields
  subst hfields
  have hcond : cond.start ∈ cond.tree.positions := by
    refine start_mem_positions (h.placed cond ?_)
    simp [nodes_node, nodesAll, self_mem_nodes]
  refine ⟨fun hnodup hbody => ?_, ?_, by simp⟩
  · simp only [positions_node, positionsAll, List.nodup_append] at hnodup
    exact hnodup.2.1.2.1.2.2 _ hcond _ (by simp [hbody]) rfl
  · simp [positions_node, positionsAll, hcond]

/-- The elements of a list, cut at its wildcards, are mirrored one by one. -/
theorem mirrorsItems_ofItems
    (hts : ∀ t ∈ ts, t.wildcard? = none → Mirrors (.ofTree metas t) (.ofTree metas a t))
    (hwildcards : ∀ t ∈ ts, ∀ p, t.wildcard? = some p → a.counterpart? p = some p) :
    MirrorsItems (PatternItem.cut (Pattern.ofItems metas ts)).1
      (PatternItem.cut (Pattern.ofItems metas ts)).2 (Template.ofItems metas a ts) := by
  induction ts with
  | nil => exact .nil
  | cons t ts ih =>
    obtain ⟨ht, hts⟩ := List.forall_mem_cons.mp hts
    obtain ⟨hwildcard, hwildcards⟩ := List.forall_mem_cons.mp hwildcards
    rw [Pattern.ofItems, Template.ofItems]
    cases hp : t.wildcard? with
    | none => exact .one (ht hp) (ih hts hwildcards)
    | some p =>
      dsimp only
      rw [hwildcard p hp]
      exact .splice (.dots p) p (ih hts hwildcards)

theorem mirrorsAll_ofFields {doc : Pattern} {key : Option Pos} {fs : List Field}
    (hdocs : ∀ x ∈ fs.zip ts, x.1.slot = .doc → x.2 = .nil ∧ Mirrors doc (.doc key .nil))
    (hts : ∀ t ∈ ts, Mirrors (.ofTree metas t) (.ofTree metas a t)) :
    MirrorsAll (Pattern.ofFields metas doc fs ts) (Template.ofFields metas a key fs ts) := by
  induction fs generalizing ts with
  | nil =>
    simp only [Pattern.ofFields, Template.ofFields]
    exact .nil
  | cons f fs ih =>
    cases ts with
    | nil => exact .nil
    | cons t ts =>
      rw [List.zip_cons_cons, List.forall_mem_cons] at hdocs
      obtain ⟨ht, hts⟩ := List.forall_mem_cons.mp hts
      rw [Pattern.ofFields, Template.ofFields]
      refine .cons ?_ (ih hdocs.2 hts)
      split
      · rename_i hf
        obtain ⟨hnil, hdoc⟩ := hdocs.1 hf
        dsimp only at hnil
        rw [hnil, Template.ofTree]
        exact hdoc
      · exact ht

/-- **The template of a tree mirrors its pattern.** -/
theorem IsRegular.mirrors (h : t.IsRegular metas a) :
    Mirrors (.ofTree metas t) (.ofTree metas a t) := by
  induction t using Tree.induction with
  | hnil => exact .nil
  | hpos p =>
    rw [Pattern.ofTree, Template.ofTree]
    by_cases hp : p.isValid = true
    · rw [h.paired p (by rw [positions, if_pos hp]; exact List.mem_cons_self)]
      exact .pos hp
    · exact .noPos (by simpa using hp) _
  | hstr s => exact .str s
  | htok t => exact .tok t
  | hlist ts ih =>
    have hts := AreRegular.of_list h
    have hitems := mirrorsItems_ofItems (fun t ht hp => ih t ht (hts.item ht hp))
      fun t ht p hp => hts.paired p ((subset_of_mem ht).1 (hts.mem_positions_of_wildcard? ht hp))
    rw [Pattern.ofTree, Template.ofTree]
    generalize PatternItem.cut (Pattern.ofItems metas ts) = parts at hitems
    obtain ⟨front, sections⟩ := parts
    cases sections with
    | nil => exact .list hitems
    | cons => exact .runs (List.cons_ne_nil _ _) hitems
  | hnode k fs ih =>
    have hn := h.self
    have hplaces {p : Pos} (hp : p ∈ (node k fs).positions) : a.counterpart? p = some p :=
      h.paired p hp
    have hcompiled := hn.compiled (a := a) h.dots
    change Mirrors (.ofTree metas (Node.tree ⟨k, fs⟩)) (.ofTree metas a (Node.tree ⟨k, fs⟩))
    generalize Pattern.ofTree metas (Node.tree ⟨k, fs⟩) = pattern,
      Template.ofTree metas a (Node.tree ⟨k, fs⟩) = template at hcompiled ⊢
    cases hcompiled with
    | metavar => exact .metavar _ _ _
    | fieldList hp =>
      rw [hplaces (Node.mem_positions_of_elidedFields? hp h.placed)]
      exact .fieldList _
    | loop hp hdots =>
      obtain ⟨-, hplace, hbody⟩ := h.elidedHeader hp
      have hmirrors := ih _ hbody (h.field hbody hdots)
      obtain ⟨x, y, cond, z, gs, -, -, hblock⟩ := hn.exists_of_elidedHeader? hp
      rw [hblock] at hmirrors ⊢
      rw [hplaces hplace]
      exact .loop _ hmirrors
    | plain hdots =>
      refine .node k (mirrorsAll_ofFields (fun x hx hslot => ⟨hn.undocumented x hx hslot, ?_⟩)
        fun t ht => ih t ht (h.field ht (hdots t ht)))
      rw [Pattern.ofDoc, hn.docKey?_eq, Option.bind_some,
        hplaces (Node.start_mem_of_mem (self_mem_nodes ⟨k, fs⟩) hn.placed)]
      exact .doc _

/-! ### Keys -/

/-- The metavariables that occur in a value. -/
def metavarNames (metas : MetaTable) (t : Tree) : List String :=
  t.nodes.filterMap fun n => (n.metavar? metas).map (·.1)

/-- The metavariables that occur in some values. -/
def metavarNamesAll (metas : MetaTable) (ts : List Tree) : List String :=
  (nodesAll ts).filterMap fun n => (n.metavar? metas).map (·.1)

theorem metavarNamesAll_cons (metas : MetaTable) (t : Tree) (ts : List Tree) :
    metavarNamesAll metas (t :: ts) = t.metavarNames metas ++ metavarNamesAll metas ts := by
  rw [metavarNamesAll, nodesAll, List.filterMap_append, metavarNames, metavarNamesAll]

theorem metavarNames_list (metas : MetaTable) (ts : List Tree) :
    (list ts).metavarNames metas = metavarNamesAll metas ts := by
  rw [metavarNames, nodes_list, metavarNamesAll]

theorem metavarNames_node (metas : MetaTable) (k : Kind) (fs : List Tree) :
    (node k fs).metavarNames metas =
      ((Node.metavar? metas ⟨k, fs⟩).map (·.1)).toList ++ metavarNamesAll metas fs := by
  rw [metavarNames, nodes_node, metavarNamesAll, List.filterMap_cons]
  cases (Node.metavar? metas ⟨k, fs⟩).map (·.1) <;> rfl

end Tree

/-- Whether a key of a pattern stands for something in a value.  A comment is known by the place
where a node begins. -/
def Key.OccursIn (metas : MetaTable) (t : Tree) : Key → Prop
  | .pos p | .dots p | .loopHeader p | .fieldList p => p ∈ t.positions
  | .doc p => p ∈ t.positions ∧ ∃ n ∈ t.nodes, n.kind.isDocumented = true ∧ n.start = p
  | .metavar name => name ∈ t.metavarNames metas
  | _ => False

namespace Key.OccursIn

variable {t u : Tree} {k : Key}

theorem mono (h : k.OccursIn metas t) (hpositions : t.positions ⊆ u.positions)
    (hnodes : t.nodes ⊆ u.nodes) : k.OccursIn metas u := by
  cases k with
  | pos | dots | loopHeader | fieldList => exact hpositions h
  | doc p =>
    obtain ⟨hp, n, hn, hstart⟩ := h
    exact ⟨hpositions hp, n, hnodes hn, hstart⟩
  | metavar name =>
    obtain ⟨n, hn, hname⟩ := List.mem_filterMap.mp h
    exact List.mem_filterMap.mpr ⟨n, hnodes hn, hname⟩
  | _ => cases h

theorem of_item {ts : List Tree} (h : k.OccursIn metas t) (ht : t ∈ ts) :
    k.OccursIn metas (.list ts) := by
  obtain ⟨hpositions, hnodes⟩ := Tree.subset_of_mem ht
  exact h.mono (Tree.positions_list ts ▸ hpositions) (Tree.nodes_list ts ▸ hnodes)

theorem of_field {l : Kind} {fs : List Tree} (h : k.OccursIn metas t) (ht : t ∈ fs) :
    k.OccursIn metas (.node l fs) := by
  obtain ⟨hpositions, hnodes⟩ := Tree.subset_of_mem ht
  refine h.mono (Tree.positions_node l fs ▸ hpositions) ?_
  rw [Tree.nodes_node]
  exact List.subset_cons_of_subset _ hnodes

/-- Nothing occurs in two values that have neither places nor metavariables in common. -/
theorem false_of_disjoint (ht : k.OccursIn metas t) (hu : k.OccursIn metas u)
    (hpositions : ∀ p ∈ t.positions, p ∉ u.positions)
    (hnames : ∀ name ∈ t.metavarNames metas, name ∉ u.metavarNames metas) : False := by
  cases k with
  | pos p | dots p | loopHeader p | fieldList p => exact hpositions p ht hu
  | doc p => exact hpositions p ht.1 hu.1
  | metavar name => exact hnames name ht hu
  | _ => cases ht

end Key.OccursIn

namespace Tree

variable {t : Tree} {ts : List Tree}

/-- Whether no place is recorded twice and no metavariable occurs twice. -/
structure IsDistinct (metas : MetaTable) (t : Tree) : Prop where
  positions : t.positions.Nodup
  names : (t.metavarNames metas).Nodup

/-- Whether no place is recorded twice and no metavariable occurs twice in some values. -/
structure AreDistinct (metas : MetaTable) (ts : List Tree) : Prop where
  positions : (positionsAll ts).Nodup
  names : (metavarNamesAll metas ts).Nodup

theorem AreDistinct.of_list (h : (list ts).IsDistinct metas) : AreDistinct metas ts :=
  ⟨positions_list ts ▸ h.positions, metavarNames_list metas ts ▸ h.names⟩

theorem AreDistinct.of_node {k : Kind} (h : (node k ts).IsDistinct metas) :
    AreDistinct metas ts := by
  have hnames := h.names
  rw [metavarNames_node] at hnames
  exact ⟨positions_node k ts ▸ h.positions, (List.nodup_append.mp hnames).2.1⟩

theorem AreDistinct.head (h : AreDistinct metas (t :: ts)) : t.IsDistinct metas := by
  have hnames := h.names
  rw [metavarNamesAll_cons] at hnames
  exact ⟨(List.nodup_append.mp h.positions).1, (List.nodup_append.mp hnames).1⟩

theorem AreDistinct.tail (h : AreDistinct metas (t :: ts)) : AreDistinct metas ts := by
  have hnames := h.names
  rw [metavarNamesAll_cons] at hnames
  exact ⟨(List.nodup_append.mp h.positions).2.1, (List.nodup_append.mp hnames).2.1⟩

theorem AreDistinct.mem (h : AreDistinct metas ts) (ht : t ∈ ts) : t.IsDistinct metas := by
  induction ts with
  | nil => cases ht
  | cons u ts ih =>
    rcases List.mem_cons.mp ht with rfl | ht
    · exact h.head
    · exact ih h.tail ht

/-- Keys of different values are different. -/
theorem AreDistinct.pairwise (h : AreDistinct metas ts) :
    ts.Pairwise fun t u => ∀ k : Key, k.OccursIn metas t → ¬ k.OccursIn metas u := by
  induction ts with
  | nil => exact .nil
  | cons t ts ih =>
    refine List.pairwise_cons.mpr ⟨fun u hu k ht hk => ?_, ih h.tail⟩
    have hnames := h.names
    rw [metavarNamesAll_cons] at hnames
    refine ht.false_of_disjoint hk (fun p hp hp' => ?_) fun name hname hname' => ?_
    · exact (List.nodup_append.mp h.positions).2.2 p hp p (mem_positionsAll.mpr ⟨u, hu, hp'⟩) rfl
    · obtain ⟨n, hn, hn'⟩ := List.mem_filterMap.mp hname'
      refine (List.nodup_append.mp hnames).2.2 name hname name ?_ rfl
      exact List.mem_filterMap.mpr ⟨n, (subset_of_mem hu).2 hn, hn'⟩

theorem AreDistinct.nodup_flatMap (h : AreDistinct metas ts) {f : Tree → List Key}
    (hoccurs : ∀ t ∈ ts, ∀ k ∈ f t, k.OccursIn metas t) (hnodup : ∀ t ∈ ts, (f t).Nodup) :
    (ts.flatMap f).Nodup := by
  refine List.nodup_flatMap.mpr ⟨hnodup, ?_⟩
  refine h.pairwise.imp_of_mem fun {t u} ht hu hdisjoint k hk hk' => ?_
  exact hdisjoint k (hoccurs t ht k hk) (hoccurs u hu k hk')

/-! The keys of the pattern of a tree, form by form. -/

/-- The keys of the pattern of a list element. -/
def itemKeys (metas : MetaTable) (t : Tree) : List Key :=
  match t.wildcard? with
  | some p => [.dots p]
  | none => (Pattern.ofTree metas t).keys

theorem keys_cut (metas : MetaTable) (ts : List Tree) :
    Pattern.keysAll (PatternItem.cut (Pattern.ofItems metas ts)).1 ++
        Pattern.sectionKeys (PatternItem.cut (Pattern.ofItems metas ts)).2 =
      ts.flatMap (itemKeys metas) := by
  induction ts with
  | nil => rfl
  | cons t ts ih =>
    rw [Pattern.ofItems, List.flatMap_cons, ← ih, itemKeys]
    cases t.wildcard? with
    | some p => rfl
    | none =>
      dsimp only [PatternItem.cut]
      rw [Pattern.keysAll, List.append_assoc]

theorem keys_ofTree_list (metas : MetaTable) (ts : List Tree) :
    (Pattern.ofTree metas (list ts)).keys = ts.flatMap (itemKeys metas) := by
  have hkeys := keys_cut metas ts
  rw [Pattern.ofTree]
  generalize PatternItem.cut (Pattern.ofItems metas ts) = parts at hkeys
  obtain ⟨front, sections⟩ := parts
  cases sections with
  | nil => rwa [Pattern.sectionKeys, List.append_nil] at hkeys
  | cons => exact hkeys

theorem keysAll_ofFields {doc : Pattern} {fs : List Field} (hlength : ts.length = fs.length)
    (hfs : ∀ f ∈ fs, f.slot ≠ .doc) :
    Pattern.keysAll (Pattern.ofFields metas doc fs ts) =
      ts.flatMap fun t => (Pattern.ofTree metas t).keys := by
  induction fs generalizing ts with
  | nil =>
    obtain rfl := List.length_eq_zero_iff.mp hlength
    rfl
  | cons f fs ih =>
    cases ts with
    | nil => cases hlength
    | cons t ts =>
      obtain ⟨hf, hfs⟩ := List.forall_mem_cons.mp hfs
      rw [Pattern.ofFields, if_neg hf, Pattern.keysAll, List.flatMap_cons,
        ih (by simpa using hlength) hfs]

end Tree

theorem Node.IsRegular.keys_fields {n : Node} (h : n.IsRegular) :
    Pattern.keysAll (Pattern.ofFields metas (.ofDoc n) n.kind.fields n.fields) =
      (if n.kind.isDocumented then [.doc n.start] else []) ++
        n.fields.flatMap fun t => (Pattern.ofTree metas t).keys := by
  have htail := n.kind.slot_ne_doc
  have hfull := h.full
  have hdocs := h.undocumented
  rw [Kind.isDocumented]
  rw [Pattern.ofDoc, h.docKey?_eq]
  generalize n.kind.fields = fields at htail hfull hdocs
  generalize n.fields = values at hfull hdocs
  cases fields with
  | nil =>
    obtain rfl := List.length_eq_zero_iff.mp hfull
    rfl
  | cons f fields =>
    rw [List.tail_cons] at htail
    cases values with
    | nil => cases hfull
    | cons t values =>
      have hrest : fields.any (·.slot == .doc) = false := by
        rw [List.any_eq_false]
        exact fun g hg => by simpa using htail g hg
      rw [List.zip_cons_cons, List.forall_mem_cons] at hdocs
      rw [Pattern.ofFields, Pattern.keysAll, List.flatMap_cons, List.any_cons, hrest, Bool.or_false,
        Tree.keysAll_ofFields (by simpa using hfull) htail]
      by_cases hf : f.slot = .doc
      · have ht := hdocs.1 hf
        dsimp only at ht
        rw [if_pos hf, ht, hf]
        rfl
      · simp [hf]

namespace Tree

variable {t : Tree} {ts : List Tree}

theorem AreRegular.occursIn_itemKeys (h : AreRegular metas a ts) (ht : t ∈ ts)
    (hoccurs : t.wildcard? = none → ∀ k ∈ (Pattern.ofTree metas t).keys, k.OccursIn metas t) :
    ∀ k ∈ itemKeys metas t, k.OccursIn metas t := by
  intro k hk
  rw [itemKeys] at hk
  cases hp : t.wildcard? with
  | some p =>
    rw [hp, List.mem_singleton] at hk
    subst hk
    exact h.mem_positions_of_wildcard? ht hp
  | none =>
    rw [hp] at hk
    exact hoccurs hp k hk

/-- The keys of the pattern of a tree stand for something in it. -/
theorem IsRegular.occursIn (h : t.IsRegular metas a) :
    ∀ k ∈ (Pattern.ofTree metas t).keys, k.OccursIn metas t := by
  induction t using Tree.induction with
  | hnil | hstr | htok => nofun
  | hpos p =>
    intro k hk
    rw [Pattern.ofTree, Pattern.keys] at hk
    split at hk
    · rename_i hp
      rw [List.mem_singleton.mp hk, Key.OccursIn, positions, if_pos hp]
      exact List.mem_cons_self
    · cases hk
  | hlist ts ih =>
    intro k hk
    rw [keys_ofTree_list] at hk
    obtain ⟨t, ht, hk⟩ := List.mem_flatMap.mp hk
    have hts := AreRegular.of_list h
    exact (hts.occursIn_itemKeys ht (fun hp => ih t ht (hts.item ht hp)) k hk).of_item ht
  | hnode k fs ih =>
    have hn := h.self
    have hcompiled := hn.compiled (a := a) h.dots
    change ∀ k' ∈ (Pattern.ofTree metas (Node.tree ⟨k, fs⟩)).keys, k'.OccursIn metas (node k fs)
    generalize Pattern.ofTree metas (Node.tree ⟨k, fs⟩) = pattern,
      Template.ofTree metas a (Node.tree ⟨k, fs⟩) = template at hcompiled ⊢
    have hself : (⟨k, fs⟩ : Node) ∈ (node k fs).nodes := self_mem_nodes ⟨k, fs⟩
    cases hcompiled with
    | metavar hmeta =>
      refine List.forall_mem_singleton.mpr (List.mem_filterMap.mpr ⟨_, hself, ?_⟩)
      rw [hmeta]
      rfl
    | fieldList hp =>
      exact List.forall_mem_singleton.mpr (Node.mem_positions_of_elidedFields? hp h.placed)
    | loop hp hdots =>
      obtain ⟨-, hplace, hbody⟩ := h.elidedHeader hp
      exact List.forall_mem_cons.mpr ⟨hplace, fun k' hk =>
        (ih _ hbody (h.field hbody hdots) k' hk).of_field hbody⟩
    | plain hdots =>
      rw [Pattern.keys, hn.keys_fields]
      refine List.forall_mem_append.mpr ⟨fun k' hk => ?_, fun k' hk => ?_⟩
      · split at hk
        · rename_i hdoc
          rw [List.mem_singleton.mp hk]
          exact ⟨Node.start_mem_of_mem hself hn.placed, _, hself, hdoc, rfl⟩
        · cases hk
      · obtain ⟨t, ht, hk⟩ := List.mem_flatMap.mp hk
        exact (ih t ht (h.field ht (hdots t ht)) k' hk).of_field ht

theorem AreRegular.nodup_itemKeys (h : AreRegular metas a ts) (hdistinct : AreDistinct metas ts)
    (hnodup : ∀ t ∈ ts, t.IsRegular metas a → t.IsDistinct metas →
      (Pattern.ofTree metas t).keys.Nodup) :
    (ts.flatMap (itemKeys metas)).Nodup := by
  refine hdistinct.nodup_flatMap (fun t ht => ?_) fun t ht => ?_
  · exact h.occursIn_itemKeys ht fun hp => (h.item ht hp).occursIn
  · rw [itemKeys]
    split
    · exact List.nodup_singleton _
    · rename_i hp
      exact hnodup t ht (h.item ht hp) (hdistinct.mem ht)

/-- **The pattern of a tree binds no key twice.** -/
theorem IsRegular.nodup_keys (h : t.IsRegular metas a) (hdistinct : t.IsDistinct metas) :
    (Pattern.ofTree metas t).keys.Nodup := by
  induction t using Tree.induction with
  | hnil | hstr | htok => exact .nil
  | hpos p =>
    rw [Pattern.ofTree, Pattern.keys]
    split
    · exact List.nodup_singleton _
    · exact .nil
  | hlist ts ih =>
    rw [keys_ofTree_list]
    exact (AreRegular.of_list h).nodup_itemKeys (AreDistinct.of_list hdistinct) fun t ht => ih t ht
  | hnode k fs ih =>
    have hn := h.self
    have hfields := AreDistinct.of_node hdistinct
    have hcompiled := hn.compiled (a := a) h.dots
    change (Pattern.ofTree metas (Node.tree ⟨k, fs⟩)).keys.Nodup
    generalize Pattern.ofTree metas (Node.tree ⟨k, fs⟩) = pattern,
      Template.ofTree metas a (Node.tree ⟨k, fs⟩) = template at hcompiled ⊢
    cases hcompiled with
    | metavar | fieldList => exact List.nodup_singleton _
    | loop hp hdots =>
      obtain ⟨hplace, -, hbody⟩ := h.elidedHeader hp
      have hregular := h.field hbody hdots
      refine List.nodup_cons.mpr ⟨fun hk => ?_, ih _ hbody hregular (hfields.mem hbody)⟩
      exact hplace hdistinct.positions (hregular.occursIn _ hk)
    | plain hdots =>
      have hoccurs (t : Tree) (ht : t ∈ fs) := (h.field ht (hdots t ht)).occursIn
      rw [Pattern.keys, hn.keys_fields]
      refine List.nodup_append.mpr ⟨?_, hfields.nodup_flatMap hoccurs fun t ht => ?_,
        fun k₁ hk₁ k₂ hk₂ => ?_⟩
      · split
        · exact List.nodup_singleton _
        · exact .nil
      · exact ih t ht (h.field ht (hdots t ht)) (hfields.mem ht)
      · split at hk₁
        · rename_i hdoc
          rw [List.mem_singleton.mp hk₁]
          rintro rfl
          obtain ⟨t, ht, hk⟩ := List.mem_flatMap.mp hk₂
          obtain ⟨-, m, hm, hm', hstart⟩ := hoccurs t ht _ hk
          exact hn.alone hdoc m ((subset_of_mem ht).2 hm) hm' hstart
        · cases hk₁

end Tree

/-! ### Stretches of containers -/

/-- Whether a template puts back what a pattern finds, whatever container and site are bound
besides. -/
structure Pattern.MirroredBy (p : Pattern) (t : Template) : Prop where
  mirrors : Mirrors p t
  nodup : p.keys.Nodup
  container : .container ∉ p.keys
  site : .site ∉ p.keys

theorem Tree.IsRegular.mirroredBy {t : Tree} (h : t.IsRegular metas a)
    (hdistinct : t.IsDistinct metas) :
    (Pattern.ofTree metas t).MirroredBy (.ofTree metas a t) :=
  ⟨h.mirrors, h.nodup_keys hdistinct, h.occursIn .container, h.occursIn .site⟩

theorem Pattern.sectionKeys_append (front back : List (Key × List Pattern)) :
    sectionKeys (front ++ back) = sectionKeys front ++ sectionKeys back := by
  induction front with
  | nil => rfl
  | cons s front ih =>
    rw [List.cons_append, sectionKeys, sectionKeys, ih, List.cons_append, List.append_assoc]

theorem Pattern.keys_ofWindow (metas : MetaTable) (ts : List Tree) (head tail : Bool) :
    (ofWindow metas ts head tail).keys =
      (if head then [.head] else []) ++ ts.flatMap (Tree.itemKeys metas) ++
      if tail then [.tail] else [] := by
  have hbehind : sectionKeys (if tail then [(.tail, [])] else []) = if tail then [.tail]
      else [] := by
    cases tail <;> rfl
  rw [← Tree.keys_cut, ofWindow]
  dsimp only
  cases head with
  | true => simp [keys, keysAll, sectionKeys, sectionKeys_append, hbehind]
  | false => simp [keys, sectionKeys_append, hbehind]

namespace Tree.AreRegular

variable {ts : List Tree} (h : AreRegular metas a ts) {head tail : Bool}
include h

theorem mirrorsItems : MirrorsItems (PatternItem.cut (Pattern.ofItems metas ts)).1
    (PatternItem.cut (Pattern.ofItems metas ts)).2 (Template.ofItems metas a ts) :=
  mirrorsItems_ofItems (fun _ ht hp => (h.item ht hp).mirrors)
    fun _ ht p hp => h.paired p ((subset_of_mem ht).1 (h.mem_positions_of_wildcard? ht hp))

/-- The template of a stretch mirrors its pattern.  A stretch without a run before it begins with a
wildcard. -/
theorem mirrors_ofWindow (hhead : head = false → ∃ t ∈ ts.head?, t.wildcard?.isSome) :
    Mirrors (.ofWindow metas ts head tail) (.ofWindow metas a ts head tail) := by
  have hbehind : MirrorsItems (PatternItem.cut (Pattern.ofItems metas ts)).1
      ((PatternItem.cut (Pattern.ofItems metas ts)).2 ++ if tail then [(.tail, [])] else [])
      (Template.ofItems metas a ts ++ if tail then [.splice (some .tail) .none] else []) := by
    cases tail with
    | true => exact h.mirrorsItems.snoc .tail .none
    | false => simpa using h.mirrorsItems
  rw [Pattern.ofWindow, Template.ofWindow]
  dsimp only
  cases head with
  | true => exact .runs nofun (.splice .head .none hbehind)
  | false =>
    refine .runs ?_ hbehind
    obtain ⟨t, ht, hp⟩ := hhead rfl
    obtain ⟨ts', rfl⟩ := List.head?_eq_some_iff.mp ht
    obtain ⟨p, hp⟩ := Option.isSome_iff_exists.mp hp
    simp [Pattern.ofItems, hp, PatternItem.cut]

theorem mirroredBy_ofWindow (hdistinct : AreDistinct metas ts)
    (hhead : head = false → ∃ t ∈ ts.head?, t.wildcard?.isSome) :
    (Pattern.ofWindow metas ts head tail).MirroredBy (.ofWindow metas a ts head tail) := by
  have hoccurs {k : Key} (hk : ∀ t, ¬ k.OccursIn metas t) : k ∉ ts.flatMap (itemKeys metas) := by
    intro hmem
    obtain ⟨t, ht, hmem⟩ := List.mem_flatMap.mp hmem
    exact hk t (h.occursIn_itemKeys ht (fun hp => (h.item ht hp).occursIn) k hmem)
  have hitems := h.nodup_itemKeys hdistinct fun _ _ ht hdistinct => ht.nodup_keys hdistinct
  have hfirst : .head ∉ ts.flatMap (itemKeys metas) := hoccurs fun _ => id
  have hlast : .tail ∉ ts.flatMap (itemKeys metas) := hoccurs fun _ => id
  have hcontainer : .container ∉ ts.flatMap (itemKeys metas) := hoccurs fun _ => id
  have hsite : .site ∉ ts.flatMap (itemKeys metas) := hoccurs fun _ => id
  refine ⟨h.mirrors_ofWindow hhead, ?_, ?_, ?_⟩
  all_goals
    rw [Pattern.keys_ofWindow]
    generalize ts.flatMap (itemKeys metas) = keys at hitems hfirst hlast hcontainer hsite
  · cases head <;> cases tail <;> simp [List.nodup_append', hitems, hfirst, hlast]
  · cases head <;> cases tail <;> simp [hcontainer]
  · cases head <;> cases tail <;> simp [hsite]

end Tree.AreRegular

end Graft
