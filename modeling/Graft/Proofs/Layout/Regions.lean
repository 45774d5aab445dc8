import Graft.Proofs.Grammar.Nesting
import Graft.Proofs.Layout.Statements

/-! # The regions of a file nest

The words of a file stand in order, and so do the comments above its nodes; so each node of the code
in a file begins at its least position (`FileReading.nests_code`), and the file begins before all of
its code.
-/

namespace Graft

namespace CommentGroup

theorem positions_tree (ds : List Comment) (lastLine : Nat) :
    (ofComments ds lastLine).tree.positions.Sublist (ds.map (·.pos)) := by
  rw [ofComments, Tree.positions_node, Tree.positionsAll_singleton, Tree.positions_list]
  induction ds with
  | nil => exact .slnil
  | cons c ds ih =>
    rw [List.map_cons, Tree.positionsAll, List.map_cons, Tree.positions_node, Tree.positionsAll]
    have hpos : ((Tree.pos c.pos).positions ++ []).Sublist [c.pos] :=
      (List.append_nil _).symm ▸ Tree.positions_pos_sublist c.pos
    exact hpos.append ih

end CommentGroup

namespace FileReading

variable {d : Dialect} {cs : List Char} (r : FileReading d cs)

theorem pairwise_positions_doc {g : CommentGroup} (hg : .doc g ∈ r.words) :
    g.tree.positions.Pairwise (· ≤ ·) := by
  obtain ⟨c, ds, line, rfl, hsub, -⟩ := r.exists_of_doc hg
  refine List.Pairwise.sublist (CommentGroup.positions_tree _ _) (List.pairwise_map.mpr ?_)
  refine (r.scans.pairwise_comments.sublist hsub).imp fun {c d} h => ?_
  exact Pos.le_trans (Pos.le_advance _ _) h

/-- A position of a word lies inside of it; a semicolon may have no extent. -/
theorem mem_positions_word {w : Word} (hw : w ∈ r.words) {p : Pos} (hp : p ∈ w.positions) :
    w.start ≤ p ∧ (p = w.start ∨ w.isSemicolon = false ∧ p ≤ w.stop) := by
  cases w with
  | lexeme l =>
    obtain rfl := List.mem_singleton.mp hp
    exact ⟨Pos.le_refl _, .inl rfl⟩
  | doc g =>
    have hfirst := Tree.start_le_of_mem (.of_pairwise (r.pairwise_positions_doc hw)) hp
    obtain ⟨c, ds, line, rfl, -⟩ := r.exists_of_doc hw
    obtain ⟨d, hd, rfl⟩ := List.mem_map.mp ((CommentGroup.positions_tree (c :: ds) line).subset hp)
    have hstop := @CommentGroup.stop_le_stop_tree _ line _ hd
    exact ⟨hfirst, .inr ⟨rfl, Pos.le_trans (Pos.le_advance _ _) hstop⟩⟩

/-- **The positions of the words of a file stand in order.** -/
theorem ordered : Word.Ordered r.words := by
  constructor
  · intro p hp
    obtain ⟨w, hw, hp⟩ := List.mem_flatMap.mp hp
    cases w with
    | lexeme l =>
      obtain rfl := List.mem_singleton.mp hp
      exact r.isValid_lexeme hw
    | doc g => exact Tree.isValid_of_mem_positions _ p hp
  · refine List.pairwise_flatMap.mpr ⟨fun w hw => ?_, ?_⟩
    · cases w with
      | lexeme l => exact List.pairwise_singleton _ _
      | doc g => exact r.pairwise_positions_doc hw
    · refine r.pairwise_words.imp_of_mem fun {v w} hv hw hbefore p hp q hq => ?_
      have hq := (r.mem_positions_word hw hq).1
      obtain ⟨-, rfl | ⟨hsemi, hle⟩⟩ := r.mem_positions_word hv hp
      · exact Pos.le_trans hbefore.1 hq
      · exact Pos.le_trans (Pos.le_trans hle (hbefore.2 hsemi)) hq

/-! ### The code of a file -/

theorem nests_comments {g : CommentGroup} (hg : .doc g ∈ r.words) :
    ∀ n ∈ g.tree.nodes, n.Nests := by
  have hsorted := r.pairwise_positions_doc hg
  obtain ⟨c, ds, line, rfl, -⟩ := r.exists_of_doc hg
  have hgroup : Pos.FirstLeast (CommentGroup.ofComments (c :: ds) line).tree.positions :=
    .of_pairwise hsorted
  rw [CommentGroup.ofComments] at hgroup ⊢
  rw [Tree.nodes_node, List.forall_mem_cons, Tree.nodesAll_singleton, Tree.nodes_list,
    Tree.forall_nodesAll]
  refine ⟨⟨hgroup, List.forall_mem_singleton.mpr ⟨?_, ?_⟩⟩, ?_⟩
  · rwa [Tree.positions_node, Tree.positionsAll_singleton] at hgroup
  · intro y hy
    obtain ⟨d, -, rfl⟩ := List.mem_map.mp hy
    rfl
  · intro t ht
    obtain ⟨d, -, rfl⟩ := List.mem_map.mp ht
    exact List.forall_mem_singleton.mpr
      (Node.Nests.leaf rfl (List.forall_mem_singleton.mpr ⟨rfl, rfl⟩))

/-- The parts of the code of a file. -/
def codeParts :
    List Part := [.sub .doc, .mark .kwPackage, .sub .ident, .lineEnd, .sub (.lines .decl)]

/-- The words of a file spell its code part by part. -/
theorem code_derives : Derives d (.parts codeParts) r.words (.list r.code) := by
  have hdecls : Derives d (.parts [.lineEnd, .sub (.lines .decl)]) (r.endWords ++ r.declWords)
      (.list [.list r.decls]) := by
    have hdecls := Derives.sub r.decls_derive .partsNil
    rw [List.append_nil] at hdecls
    rcases r.end_isEnd with h | ⟨l, hl, h⟩
    · rw [h]
      exact .noLineEnd hdecls
    · rw [h]
      exact .lineEnd hl hdecls
  exact .sub r.doc_derives (.mark r.package_token (.sub r.name_derives hdecls))

/-- A file begins before all of its code. -/
theorem firstLeast_code : Pos.FirstLeast (Tree.positionsAll r.code) := by
  have h := r.code_derives.firstLeast rfl rfl r.ordered
  rwa [Tree.positions_list] at h

/-- **The nodes of the code in a file nest.** -/
theorem nests_code (r : FileReading .code cs) :
    (∀ n ∈ Tree.nodesAll r.code, n.Nests) ∧
      ∀ x ∈ r.code, Pos.FirstLeast x.positions ∧ ∀ y ∈ x.items, y.kind?.isSome = true := by
  have hplaced (w : Word) (hw : w ∈ r.words) := r.placed hw
  have hnodes := r.code_derives.nests rfl r.ordered hplaced fun g hg => r.nests_comments hg
  rw [Tree.nodes_list] at hnodes
  exact ⟨hnodes, r.code_derives.firstLeast_fields rfl rfl r.ordered hplaced⟩

end FileReading

/-! ### Leaves -/

/-- Whether a value is a position, a string or a token. -/
def Tree.isAtom : Tree → Bool
  | .pos _ | .str _ | .tok _ => true
  | _ => false

/-- Whether a node is an identifier or a literal. -/
def Node.isLeaf (n : Node) : Bool := n.kind == .ident || n.kind == .basicLit

/-- Identifiers and literals have nothing inside. -/
theorem FileReading.isAtom_leaf {d : Dialect} {cs : List Char} (r : FileReading d cs) :
    ∀ n ∈ r.node.tree.nodes, n.isLeaf = true → ∀ x ∈ n.fields, x.isAtom = true := by
  have hcomment {n : Node} (h : n.kind.isComment = true) : ¬ n.isLeaf = true := by
    intro hleaf
    rcases (Bool.or_eq_true _ _).mp hleaf with hkind | hkind
    all_goals
      rw [beq_iff_eq.mp hkind] at h
      cases h
  have hcode := r.code_derives.forall_nodes (P := fun n => n.isLeaf = true →
    ∀ x ∈ n.fields, x.isAtom = true)
    (fun _ _ _ => List.forall_mem_cons.mpr ⟨rfl, List.forall_mem_singleton.mpr rfl⟩)
    (fun _ _ _ _ => List.forall_mem_cons.mpr
      ⟨rfl, List.forall_mem_cons.mpr ⟨rfl, List.forall_mem_singleton.mpr rfl⟩⟩)
    (fun _ => nofun) (fun _ _ => nofun) (fun hr _ => by cases hr <;> nofun) rfl
    fun g hg n hn hleaf => absurd hleaf (hcomment ((r.placed hg).2.2 n hn))
  rw [r.nodes_node, List.forall_mem_cons, List.forall_mem_append]
  refine ⟨nofun, ?_, fun n hn hleaf => absurd hleaf (hcomment (r.isComment_comments n hn))⟩
  rwa [Tree.nodes_list] at hcode

end Graft
