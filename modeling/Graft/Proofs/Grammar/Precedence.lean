import Graft.Proofs.Grammar.Slots
import Graft.Proofs.Layout.Meaning

/-! # Operators group by precedence

What is read is well bound: every operand binds as tightly as the operator it belongs to asks.  Here
this is said of the nodes one by one and through their fields (`Node.Grouped`): a binary operator
takes operators of its own precedence on its left only, an operator in front of its operand takes no
binary one, and what is selected from, indexed, sliced, asserted or called is no operator at all,
unless it stands in parentheses.

A tree is well bound as a whole, so the proof goes from the tree to its nodes; that a node has its
operator where the schema says follows from the schema (`Node.Fits`).
-/

namespace Graft

/-! ### The nodes of a well bound tree -/

namespace Tree

mutual

theorem wellBound_of_mem_nodes (t : Tree) (h : t.wellBound = true) :
    ∀ n ∈ t.nodes, n.tree.wellBound = true := by
  match t with
  | list ts =>
    rw [nodes_list]
    exact wellBound_of_mem_nodesAll ts (wellBound_list.mp h)
  | node k fs =>
    rw [nodes_node, List.forall_mem_cons]
    exact ⟨h, wellBound_of_mem_nodesAll fs (wellBound_node.mp h).2⟩
  | nil | pos _ | str _ | tok _ =>
    rw [nodes] <;> nofun

theorem wellBound_of_mem_nodesAll (ts : List Tree) (h : ∀ t ∈ ts, t.wellBound = true) :
    ∀ n ∈ nodesAll ts, n.tree.wellBound = true := by
  match ts with
  | [] => nofun
  | t :: ts =>
    obtain ⟨ht, hts⟩ := List.forall_mem_cons.mp h
    rw [nodesAll, List.forall_mem_append]
    exact ⟨wellBound_of_mem_nodes t ht, wellBound_of_mem_nodesAll ts hts⟩

end

end Tree

/-! ### Nodes of operators -/

/-- How a node groups its operands. -/
structure Node.Grouped (n : Node) : Prop where
  /-- A binary operator on the left binds at least as tightly, and one on the right more tightly. -/
  binary : n.kind = .binaryExpr → ∃ op, n.tok? .op = some op ∧
    (∀ m, n.node? .x = some m → m.kind = .binaryExpr →
      ∃ op', m.tok? .op = some op' ∧ op.precedence ≤ op'.precedence) ∧
    ∀ m, n.node? .y = some m → m.kind = .binaryExpr →
      ∃ op', m.tok? .op = some op' ∧ op.precedence < op'.precedence
  /-- An operator stands in front of no binary operator. -/
  prefixed : n.kind = .unaryExpr ∨ n.kind = .starExpr → (n.get .x).isKind .binaryExpr = false
  /-- Nothing is selected from, indexed, sliced or asserted of an operator. -/
  suffixed : n.kind ∈ [Kind.selectorExpr, .indexExpr, .sliceExpr, .typeAssertExpr] →
    ∀ k ∈ [Kind.binaryExpr, .unaryExpr, .starExpr], (n.get .x).isKind k = false
  /-- No operator is called. -/
  called : n.kind = .callExpr →
    ∀ k ∈ [Kind.binaryExpr, .unaryExpr, .starExpr], (n.get .fun_).isKind k = false

namespace Node.Fits

variable {n : Node}

/-- The fields of a node that fits are accepted by their slots. -/
theorem accepts_fields {k : Kind} {fs : List Tree} (h : Fits ⟨k, fs⟩) (hk : k ≠ .field) :
    ∀ x ∈ k.fields.zip fs, x.1.slot.accepts x.2 = true :=
  fun x hx => (h.accepts x hx).mpr fun hfield => absurd hfield hk

theorem exists_binary (h : n.Fits) (hk : n.kind = .binaryExpr) :
    ∃ x p op y, n = ⟨.binaryExpr, [x, p, .tok op, y]⟩ := by
  obtain ⟨k, fs⟩ := n
  obtain rfl : k = .binaryExpr := hk
  obtain ⟨x, p, o, y, rfl⟩ := List.length_eq_four.mp h.length
  have ho := h.accepts_fields nofun (⟨.op, .token⟩, o) (by simp [Kind.fields])
  cases o with
  | tok op => exact ⟨x, p, op, y, rfl⟩
  | _ => cases ho

theorem exists_unary (h : n.Fits) (hk : n.kind = .unaryExpr) :
    ∃ p op x, n = ⟨.unaryExpr, [p, .tok op, x]⟩ := by
  obtain ⟨k, fs⟩ := n
  obtain rfl : k = .unaryExpr := hk
  obtain ⟨p, o, x, rfl⟩ := List.length_eq_three.mp h.length
  have ho := h.accepts_fields nofun (⟨.op, .token⟩, o) (by simp [Kind.fields])
  cases o with
  | tok op => exact ⟨p, op, x, rfl⟩
  | _ => cases ho

theorem exists_star (h : n.Fits) (hk : n.kind = .starExpr) : ∃ p x, n = ⟨.starExpr, [p, x]⟩ := by
  obtain ⟨k, fs⟩ := n
  obtain rfl : k = .starExpr := hk
  obtain ⟨p, x, rfl⟩ := List.length_eq_two.mp h.length
  exact ⟨p, x, rfl⟩

/-- A binary operator holds together as its precedence says. -/
theorem tightness_binary (h : n.Fits) (hk : n.kind = .binaryExpr) :
    ∃ op, n.tok? .op = some op ∧ n.tree.tightness = op.precedence := by
  obtain ⟨x, p, op, y, rfl⟩ := h.exists_binary hk
  exact ⟨op, rfl, rfl⟩

/-- No operator holds together as tightly as an operand. -/
theorem tightness_lt (h : n.Fits) (hk : n.kind ∈ [Kind.binaryExpr, .unaryExpr, .starExpr]) :
    n.tree.tightness < 7 := by
  simp only [List.mem_cons, List.not_mem_nil, or_false] at hk
  obtain hk | hk | hk := hk
  · obtain ⟨op, -, htight⟩ := h.tightness_binary hk
    have hop := op.precedence_le
    omega
  · obtain ⟨p, op, x, rfl⟩ := h.exists_unary hk
    exact Nat.lt_succ_self 6
  · obtain ⟨p, x, rfl⟩ := h.exists_star hk
    exact Nat.lt_succ_self 6

end Node.Fits

namespace Tree

variable {t : Tree} {k : Kind}

theorem isKind_of_tightness (hfits : ∀ n ∈ t.nodes, n.Fits) (htight : 7 ≤ t.tightness) :
    ∀ k ∈ [Kind.binaryExpr, .unaryExpr, .starExpr], t.isKind k = false := by
  intro k hk
  cases t with
  | node l fs =>
    refine beq_eq_false_iff_ne.mpr fun heq => ?_
    obtain rfl : l = k := Option.some.inj heq
    have hlt := (hfits ⟨l, fs⟩ (by rw [nodes_node]; exact List.mem_cons_self)).tightness_lt hk
    exact absurd htight (Nat.not_le_of_lt hlt)
  | _ => rfl

/-- An operand that is a binary operator binds as its own operator does. -/
theorem exists_operator (hfits : ∀ n ∈ t.nodes, n.Fits) {m : Node} (hm : t.node? = some m)
    (hk : m.kind = .binaryExpr) : ∃ op, m.tok? .op = some op ∧ t.tightness = op.precedence := by
  cases t with
  | node l fs =>
    cases hm
    exact (hfits ⟨l, fs⟩ (by rw [nodes_node]; exact List.mem_cons_self)).tightness_binary hk
  | _ => cases hm

theorem isKind_binary_of_tightness (hfits : ∀ n ∈ t.nodes, n.Fits) (htight : 6 ≤ t.tightness) :
    t.isKind .binaryExpr = false := by
  cases t with
  | node l fs =>
    refine beq_eq_false_iff_ne.mpr fun heq => ?_
    obtain ⟨op, -, hop⟩ := exists_operator hfits rfl (Option.some.inj heq)
    have hle := op.precedence_le
    omega
  | _ => rfl

end Tree

/-- **A node whose operands bind as tightly as its operator asks groups them by precedence.** -/
theorem Node.Fits.grouped {n : Node} (h : n.Fits) (hbinds : n.tree.binds = true)
    (hfields : ∀ x ∈ n.fields, ∀ m ∈ x.nodes, m.Fits) : n.Grouped where
  binary hk := by
    obtain ⟨x, p, op, y, rfl⟩ := h.exists_binary hk
    obtain ⟨hx, hy⟩ := Tree.binds_binary.mp hbinds
    refine ⟨op, rfl, fun m hm hkind => ?_, fun m hm hkind => ?_⟩
    · obtain ⟨op', hop', heq⟩ := Tree.exists_operator (hfields x (by simp)) hm hkind
      exact ⟨op', hop', heq ▸ hx⟩
    · obtain ⟨op', hop', heq⟩ := Tree.exists_operator (hfields y (by simp)) hm hkind
      exact ⟨op', hop', heq ▸ hy⟩
  prefixed hk := by
    obtain hk | hk := hk
    · obtain ⟨p, op, x, rfl⟩ := h.exists_unary hk
      exact Tree.isKind_binary_of_tightness (hfields x (by simp)) (of_decide_eq_true hbinds)
    · obtain ⟨p, x, rfl⟩ := h.exists_star hk
      exact Tree.isKind_binary_of_tightness (hfields x (by simp)) (of_decide_eq_true hbinds)
  suffixed hk := by
    obtain ⟨k, fs⟩ := n
    simp only [List.mem_cons, List.not_mem_nil, or_false] at hk
    obtain rfl | rfl | rfl | rfl := hk
    all_goals
      obtain ⟨x, fs, rfl⟩ := List.exists_cons_of_length_eq_add_one h.length
      exact Tree.isKind_of_tightness (hfields x List.mem_cons_self)
        ((Tree.binds_suffix rfl).mp hbinds)
  called hk := by
    obtain ⟨k, fs⟩ := n
    obtain rfl : k = .callExpr := hk
    obtain ⟨x, fs, rfl⟩ := List.exists_cons_of_length_eq_add_one h.length
    exact Tree.isKind_of_tightness (hfields x List.mem_cons_self)
      ((Tree.binds_suffix rfl).mp hbinds)

/-- The nodes of a well bound tree that fits the schema group their operands by precedence. -/
theorem Tree.grouped {t : Tree} (hfits : ∀ n ∈ t.nodes, n.Fits) (hbound : t.wellBound = true) :
    ∀ n ∈ t.nodes, n.Grouped := by
  intro n hn
  have hinside : ∀ m ∈ n.tree.nodes, m.Fits :=
    fun m hm => hfits m ((sublist_nodes t n hn).subset hm)
  refine (hfits n hn).grouped (wellBound_node.mp (wellBound_of_mem_nodes t hbound n hn)).1
    fun x hx m hm => ?_
  refine hinside m ?_
  rw [Node.tree, nodes_node]
  exact List.mem_cons_of_mem _ (mem_nodesAll.mpr ⟨x, hx, hm⟩)

/-- The trees of a fragment are well bound. -/
theorem Fragment.Spelled.wellBound {d : Dialect} {cs : List Comment}
    {groups : List CommentGroup} {c : Cursor} {f : Fragment} (h : f.Spelled d groups c)
    (hgroups : CommentGroup.Groups cs groups) :
    ∀ t ∈ f.trees, t.wellBound = true := by
  have hlist {s : Phrase} {ws : List Word} {ts : List Tree} (h : Derives d s ws (.list ts))
      (hs : s.isProper = true) (hws : ∀ g, .doc g ∈ ws → g ∈ groups) :
      ∀ t ∈ ts, t.wellBound = true := by
    refine Tree.wellBound_list.mp (h.wellBound hs fun g hg => ?_)
    obtain ⟨ds, line, -, -, rfl⟩ := hgroups.exists_comments (hws g hg)
    exact CommentGroup.wellBound_tree ds line
  rw [f.trees_eq, List.forall_mem_append, List.forall_mem_append]
  refine ⟨?_, ?_, ?_⟩
  · intro t ht
    obtain ⟨x, hx, rfl⟩ := Option.map_eq_some_iff.mp (Option.mem_toList.mp ht)
    obtain ⟨p, name, heq⟩ := h.package x hx
    rw [heq]
    rfl
  · obtain ⟨ws, hws, himports⟩ := h.imports
    exact hlist himports rfl hws
  · obtain ⟨_, _, -, hbody⟩ := h.body
    obtain ⟨s, ws, c', run, hs, hbody⟩ := hbody.exists_words
    exact hlist hbody hs fun g hg => run.mem_groups hg

/-- **Operators group by precedence and to the left in all that is read**, in code and in
patterns. -/
theorem parse_grouped (d : Dialect) (cs : List Char) :
    (∀ file, parseFile d cs = .ok file → ∀ n ∈ file.tree.nodes, n.Grouped) ∧
      ∀ f, parseFragment d cs = .ok f → ∀ t ∈ f.trees, ∀ n ∈ t.nodes, n.Grouped := by
  constructor
  · intro file h
    obtain ⟨r, rfl⟩ := exists_fileReading h
    exact Tree.grouped r.fits r.wellBound
  · intro f h t ht
    obtain ⟨scan, groups, -, hgroups, hspelled⟩ := exists_of_parseFragment h
    exact Tree.grouped (hspelled.fits hgroups t ht) (hspelled.wellBound hgroups t ht)

/-- A difference of three terms, the last a product of a negated call, and a pattern with a wildcard
for an operand. -/
theorem parse_grouped_difference :
    (∃ file, parseFile .code "package p\nvar d = a - b - c * -f(x + 1).y\n".toList = .ok file ∧
      ∀ n ∈ file.tree.nodes, n.Grouped) ∧
    ∃ f, parseFragment .pattern "*p || ... && q == r[i]".toList = .ok f ∧
      ∀ t ∈ f.trees, ∀ n ∈ t.nodes, n.Grouped := by
  obtain ⟨file, hfile⟩ := exists_of_isOk (show (parseFile .code
    "package p\nvar d = a - b - c * -f(x + 1).y\n".toList).isOk = true by decide +kernel)
  obtain ⟨f, hf⟩ := exists_of_isOk (show (parseFragment .pattern
    "*p || ... && q == r[i]".toList).isOk = true by decide +kernel)
  exact ⟨⟨file, hfile, (parse_grouped _ _).1 file hfile⟩, f, hf, (parse_grouped _ _).2 f hf⟩

end Graft
