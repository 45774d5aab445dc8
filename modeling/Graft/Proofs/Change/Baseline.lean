import Graft.Proofs.Change.Alignment
import Graft.Proofs.Change.EditLog
import Graft.Proofs.Layout.Regions
import Graft.Proofs.Tree.Conforms

/-! # A comparison marks all that is gone

Comparing a baseline with a new tree marks ranges of the old one.  If an identifier or a literal of
the old tree is not in the new one, some marked range covers it (`Baseline.marks_cover`): wherever
the two trees part on the way down to it, what is marked there is the range of a node or list around
it.
-/

namespace Graft

/-- Whether a span reaches over a node. -/
def Span.Covers (s : Span) (n : Node) : Prop :=
  s.start.isValid = true ∧ s.start ≤ n.start ∧ n.stop ≤ s.stop

theorem Span.Covers.holds {s : Span} {n : Node} {p : Pos} (h : s.Covers n) (hle : n.start ≤ p)
    (hlt : p < n.stop) : s.Holds p := by
  obtain ⟨hvalid, hstart, hstop⟩ := h
  simp only [Span.Holds, Span.isValid, Pos.isValid, Bool.and_eq_true, bne_iff_ne, decide_eq_true_eq,
    Pos.le_def, Pos.lt_def] at *
  omega

/-! ### Values of a tree that was read -/

/-- What is known of the values in the code of a file. -/
structure Tree.Neat (t : Tree) : Prop where
  first : Pos.FirstLeast t.positions
  items : ∀ x ∈ t.items, x.kind?.isSome = true
  nodes : ∀ n ∈ t.nodes, n.Nests
  full : t.Full

namespace Tree.Neat

variable {t x : Tree} {k : Kind} {fs ts : List Tree}

theorem field (h : (node k fs).Neat) (hx : x ∈ fs) : x.Neat := by
  have hnodes := h.nodes
  have hfull := h.full
  rw [Tree.Full] at hfull
  rw [nodes_node, List.forall_mem_cons, forall_nodesAll] at hnodes hfull
  obtain ⟨hfirst, hitems⟩ := hnodes.1.fields x hx
  exact ⟨hfirst, hitems, hnodes.2 x hx, hfull.2 x hx⟩

theorem item (h : (list ts).Neat) (hx : x ∈ ts) : x.Neat := by
  have hnodes := h.nodes
  have hfull := h.full
  rw [Tree.Full] at hfull
  rw [nodes_list, forall_nodesAll] at hnodes hfull
  have hnode := h.items x hx
  have hhere := hnodes x hx
  cases x with
  | node k fs =>
    rw [nodes_node, List.forall_mem_cons] at hhere
    exact ⟨hhere.1.first, nofun, hnodes _ hx, hfull _ hx⟩
  | _ => cases hnode

/-- A value reaches over the nodes inside it. -/
theorem covers_span (h : t.Neat) {n : Node} (hn : n ∈ t.nodes) (hvalid : n.start.isValid = true) :
    t.span.Covers n := by
  have hmem : n.start ∈ t.positions :=
    positions_subset_of_mem_nodes t n hn (start_mem_positions (t := n.tree) hvalid)
  have hle := start_le_of_mem h.first hmem
  refine ⟨?_, hle, stop_nodes_le t h.full n hn⟩
  obtain ⟨p, ps, hps⟩ := List.exists_cons_of_ne_nil (List.ne_nil_of_mem hmem)
  rw [span, start_eq_head, hps]
  exact isValid_of_mem_positions t p (by rw [hps]; exact List.mem_cons_self)

end Tree.Neat

namespace Baseline

variable {b : Baseline} {n : Node} {s enclosing here : Span}

theorem covers_orEnclosing (hs : (s.isValid && !s.isEmpty) = true → s.Covers n)
    (henclosing : enclosing.Covers n) : (orEnclosing s enclosing).Covers n := by
  unfold orEnclosing
  split
  · exact hs ‹_›
  · exact henclosing

/-- Whether comments stand at some place and end behind their beginning. -/
def Commented (b : Baseline) : Prop := ∀ g ∈ b.comments, g.start ≤ g.stop

theorem widen_start_le (hb : b.Commented) (s : Span) (prev next : Option Pos) :
    (b.widen s prev next).start ≤ s.start := by
  have hif {c : Prop} [Decidable c] {p q : Pos} (hp : p ≤ q) : (if c then p else q) ≤ q := by
    split
    · exact hp
    · exact Pos.le_refl q
  unfold widen
  split
  · exact Pos.le_refl _
  · dsimp only
    split
    · exact Pos.le_refl _
    · rename_i g hg
      have hle := hb g (List.mem_reverse.mp (List.mem_of_find?_eq_some hg))
      have hbefore := List.find?_some hg
      exact hif (Pos.le_trans hle (of_decide_eq_true hbefore))

theorem le_widen_stop (hb : b.Commented) (s : Span) (prev next : Option Pos) :
    s.stop ≤ (b.widen s prev next).stop := by
  have hif {c : Prop} [Decidable c] {p q : Pos} (hp : q ≤ p) : q ≤ (if c then p else q) := by
    split
    · exact hp
    · exact Pos.le_refl q
  unfold widen
  split
  · exact Pos.le_refl _
  · dsimp only
    cases hg : b.comments.find? (fun g => decide (s.stop ≤ g.start)) with
    | none => exact Pos.le_refl _
    | some g =>
      have hle := hb g (List.mem_of_find?_eq_some hg)
      have hbehind := List.find?_some hg
      exact hif (Pos.le_trans (of_decide_eq_true hbehind) hle)

/-- A range stretched over comments still reaches over what it did. -/
theorem covers_widen (hb : b.Commented) (hs : s.Covers n) {prev next : Option Pos}
    (hvalid : ((b.widen s prev next).isValid && !(b.widen s prev next).isEmpty) = true) :
    (b.widen s prev next).Covers n := by
  refine ⟨(SpanSet.proper_iff.mp hvalid).1, ?_, ?_⟩
  · exact Pos.le_trans (widen_start_le hb s prev next) hs.2.1
  · exact Pos.le_trans hs.2.2 (le_widen_stop hb s prev next)

/-! ### Leaves -/

theorem mem_marks_atom {x y : Tree} (hx : x.isAtom = true) (hne : x ≠ y) :
    here ∈ b.marks here x y := by
  have hif {z : Tree} (hne : z ≠ y) : here ∈ (if z == y then [] else [here]) := by
    rw [if_neg fun h => hne (eq_of_beq h)]
    exact List.mem_singleton_self here
  cases x with
  | pos p =>
    rw [marks]
    exact hif hne
  | str s =>
    rw [marks]
    exact hif hne
  | tok t =>
    rw [marks]
    exact hif hne
  | _ => cases hx

/-- A leaf that changed is marked. -/
theorem mem_fieldMarks_atoms {xs ys : List Tree} (hxs : ∀ x ∈ xs, x.isAtom = true)
    (hlength : xs.length = ys.length) (hne : xs ≠ ys) : here ∈ b.fieldMarks here xs ys := by
  induction xs generalizing ys with
  | nil =>
    cases ys with
    | nil => exact absurd rfl hne
    | cons y ys => cases hlength
  | cons x xs ih =>
    cases ys with
    | nil => cases hlength
    | cons y ys =>
      obtain ⟨hx, hxs⟩ := List.forall_mem_cons.mp hxs
      rw [fieldMarks, List.mem_append]
      by_cases heq : x = y
      · subst heq
        exact .inr (ih hxs (Nat.succ.inj hlength) fun h => hne (by rw [h]))
      · refine .inl ?_
        split
        · exact List.mem_singleton_self _
        · exact mem_marks_atom hx heq

/-! ### The whole comparison -/

theorem covers_place {x : Tree} (hx : x.Neat) (hn : n ∈ x.nodes) (hvalid : n.start.isValid = true) :
    (place x).Covers n := by
  cases x with
  | node k fs => exact hx.covers_span hn hvalid
  | list ts => exact hx.covers_span hn hvalid
  | nil | pos _ | str _ | tok _ => cases hn

mutual

/-- **A leaf that is gone is covered by a mark.** -/
theorem marks_cover (hb : b.Commented) (hvalid : n.start.isValid = true)
    (hatoms : ∀ x ∈ n.fields, x.isAtom = true) (old new : Tree) {enclosing : Span} (hold : old.Neat)
    (hnew : new.Full) (hn : n ∈ old.nodes) (hgone : n ∉ new.nodes)
    (henclosing : enclosing.Covers n) :
    ∃ s ∈ b.marks enclosing old new, s.Covers n := by
  have hplace : (orEnclosing (place old) enclosing).Covers n :=
    covers_orEnclosing (fun _ => covers_place hold hn hvalid) henclosing
  match old, new with
  | .node k fs, .node l gs =>
    rw [marks]
    split
    · rename_i hkind
      obtain rfl := beq_iff_eq.mp hkind
      have hlength : fs.length = gs.length :=
        (hold.full ⟨k, fs⟩ (by rw [Tree.nodes_node]; exact List.mem_cons_self)).trans
          (hnew ⟨k, gs⟩ (by rw [Tree.nodes_node]; exact List.mem_cons_self)).symm
      rw [Tree.nodes_node] at hn hgone
      rw [Tree.Full, Tree.nodes_node, List.forall_mem_cons, Tree.forall_nodesAll] at hnew
      rcases List.mem_cons.mp hn with rfl | hn
      · have hne : fs ≠ gs := fun h => hgone (by rw [h]; exact List.mem_cons_self)
        exact ⟨_, mem_fieldMarks_atoms hatoms hlength hne, hplace⟩
      · exact fieldMarks_cover hb hvalid hatoms fs gs hlength (fun x hx _ => hold.field hx) hnew.2
          hn
          (fun h => hgone (List.mem_cons_of_mem _ h)) hplace
    · exact ⟨_, List.mem_singleton_self _, hplace⟩
  | .list xs, .list ys =>
    rw [marks]
    rw [Tree.nodes_list] at hn hgone
    rw [Tree.Full, Tree.nodes_list, Tree.forall_nodesAll] at hnew
    exact itemMarks_cover hb hvalid hatoms xs ys none (listScript_turns xs ys)
      (fun x hx => hold.item hx) hnew
      hn hgone hplace
  | .node k fs, .nil | .node k fs, .pos _ | .node k fs, .str _ | .node k fs,
    .tok _ | .node k fs, .list _
  | .list xs, .nil | .list xs, .pos _ | .list xs, .str _ | .list xs, .tok _ | .list xs, .node _ _ =>
    exact ⟨_, List.mem_singleton_self _, hplace⟩
  | .nil, _ | .pos _, _ | .str _, _ | .tok _, _ => cases hn

theorem fieldMarks_cover (hb : b.Commented) (hvalid : n.start.isValid = true)
    (hatoms : ∀ x ∈ n.fields, x.isAtom = true) (xs ys : List Tree) {here : Span}
    (hlength : xs.length = ys.length) (hxs : ∀ x ∈ xs, n ∈ x.nodes → x.Neat)
    (hys : ∀ y ∈ ys, y.Full) (hn : n ∈ Tree.nodesAll xs) (hgone : n ∉ Tree.nodesAll ys)
    (hhere : here.Covers n) :
    ∃ s ∈ b.fieldMarks here xs ys, s.Covers n := by
  match xs, ys with
  | [], _ => cases hn
  | _ :: _, [] => cases hlength
  | x :: xs, y :: ys =>
    rw [Tree.nodesAll, List.mem_append] at hn hgone
    rw [not_or] at hgone
    rw [List.forall_mem_cons] at hxs hys
    rw [fieldMarks]
    rcases hn with hn | hn
    · obtain ⟨s, hs, hcovers⟩ : ∃ s ∈ (if x.isNil != y.isNil then [here] else b.marks here x y),
          s.Covers n := by
        split
        · exact ⟨_, List.mem_singleton_self _, hhere⟩
        · exact marks_cover hb hvalid hatoms x y (hxs.1 hn) hys.1 hn hgone.1 hhere
      exact ⟨s, List.mem_append_left _ hs, hcovers⟩
    · obtain ⟨s, hs, hcovers⟩ := fieldMarks_cover hb hvalid hatoms xs ys (Nat.succ.inj hlength)
        hxs.2 hys.2 hn
        hgone.2 hhere
      exact ⟨s, List.mem_append_right _ hs, hcovers⟩

theorem itemMarks_cover (hb : b.Commented) (hvalid : n.start.isValid = true)
    (hatoms : ∀ x ∈ n.fields, x.isAtom = true) (xs ys : List Tree) {enclosing : Span}
    (prev : Option Pos) {steps : List EditStep} (hturns : EditStep.Turns xs ys steps)
    (hxs : ∀ x ∈ xs, x.Neat) (hys : ∀ y ∈ ys, y.Full) (hn : n ∈ Tree.nodesAll xs)
    (hgone : n ∉ Tree.nodesAll ys) (henclosing : enclosing.Covers n) :
    ∃ s ∈ b.itemMarks enclosing prev xs ys steps, s.Covers n := by
  match xs with
  | [] => cases hn
  | x :: xs =>
    rw [Tree.nodesAll, List.mem_append] at hn
    rw [List.forall_mem_cons] at hxs
    rw [itemMarks]
    have hcases := hturns.cons_cases
    generalize (steps.takeWhile (· == .inserted)).length = count at hcases ⊢
    -- what is new in front of the item concerns no old one
    have hdrop : (ys.drop count).Sublist ys := List.drop_sublist _ _
    have hgone : n ∉ Tree.nodesAll (ys.drop count) :=
      fun h => hgone ((Tree.nodesAll_sublist hdrop).subset h)
    have hys : ∀ y ∈ ys.drop count, y.Full := fun y hy => hys y (hdrop.subset hy)
    rcases hcases with ⟨ys', steps', hys', hsteps, hturns⟩ | ⟨y, ys', steps', hys',
      hsteps, hturns⟩ |
      ⟨steps', hsteps, hturns⟩
    · rw [hys', Tree.nodesAll, List.mem_append, not_or] at hgone
      rw [hys', List.forall_mem_cons] at hys
      rw [hys', hsteps]
      have hn := hn.resolve_left hgone.1
      obtain ⟨s, hs, hcovers⟩ :=
        itemMarks_cover hb hvalid hatoms xs ys' _ hturns hxs.2 hys.2 hn hgone.2
        henclosing
      exact ⟨s, List.mem_append_right _ hs, hcovers⟩
    · rw [hys', Tree.nodesAll, List.mem_append, not_or] at hgone
      rw [hys', List.forall_mem_cons] at hys
      rw [hys', hsteps]
      rcases hn with hn | hn
      · obtain ⟨s, hs, hcovers⟩ :=
          marks_cover hb hvalid hatoms x y hxs.1 hys.1 hn hgone.1 henclosing
        exact ⟨s, List.mem_append_right _ (List.mem_append_left _ hs), hcovers⟩
      · obtain ⟨s, hs, hcovers⟩ :=
          itemMarks_cover hb hvalid hatoms xs ys' _ hturns hxs.2 hys.2 hn hgone.2
          henclosing
        exact ⟨s, List.mem_append_right _ (List.mem_append_right _ hs), hcovers⟩
    · generalize ys.drop count = zs at hgone hys hturns ⊢
      obtain ⟨s, hs, hcovers⟩ : ∃ s ∈ orEnclosing (b.widen (place x) prev
          (xs.head?.bind fun t => valid? (place t).start)) enclosing ::
            b.itemMarks enclosing (valid? (place x).stop) xs zs steps', s.Covers n := by
        rcases hn with hn | hn
        · exact ⟨_, List.mem_cons_self, covers_orEnclosing
            (covers_widen hb (covers_place hxs.1 hn hvalid)) henclosing⟩
        · obtain ⟨s, hs, hcovers⟩ :=
            itemMarks_cover hb hvalid hatoms xs zs _ hturns hxs.2 hys hn hgone
            henclosing
          exact ⟨s, List.mem_cons_of_mem _ hs, hcovers⟩
      rw [hsteps]
      refine ⟨s, List.mem_append_right _ ?_, hcovers⟩
      cases zs <;> exact hs

end

end Baseline

theorem EditLog.markAll_eq (log : EditLog) (ss : List Span) :
    log.markAll ss = { log with marked := ss.foldl SpanSet.insert log.marked } := by
  rw [markAll]
  induction ss generalizing log with
  | nil => rfl
  | cons s ss ih => exact ih (log.mark s)

/-- What changed in a comparison is what it marks. -/
theorem EditLog.contains_commit_markAll_iff {ss : List Span} {p : Pos} :
    (empty.markAll ss).commit.changed.contains p = true ↔ ∃ s ∈ ss, s.Holds p := by
  have hmarked := SpanSet.normal_foldl_insert SpanSet.normal_empty ss
  rw [markAll_eq, commit]
  dsimp only [empty]
  rw [SpanSet.contains_union SpanSet.normal_empty (hmarked.subtract _),
    SpanSet.contains_subtract hmarked SpanSet.normal_empty,
    SpanSet.contains_foldl_insert SpanSet.normal_empty, SpanSet.contains_empty]
  simp

/-- The marks of a comparison count as changes. -/
theorem EditLog.contains_commit_markAll {ss : List Span} {s : Span} {p : Pos} (hs : s ∈ ss)
    (hp : s.Holds p) : (empty.markAll ss).commit.changed.contains p = true :=
  contains_commit_markAll_iff.mpr ⟨s, hs, hp⟩

/-- The nodes of a conforming value have all their fields. -/
theorem Tree.full_of_conforms (t : Tree) (h : t.conforms = true) : t.Full := by
  match t with
  | .node k fs =>
    obtain ⟨hlength, -, hfields⟩ := conforms_node.mp h
    rw [Full, nodes_node, List.forall_mem_cons, forall_nodesAll]
    exact ⟨hlength, fun x hx => full_of_conforms x (hfields x hx)⟩
  | .list ts =>
    rw [Full, nodes_list, forall_nodesAll]
    exact fun x hx => full_of_conforms x (conforms_list.mp h x hx)
  | .nil | .pos _ | .str _ | .tok _ => nofun

namespace FileReading

variable {cs : List Char} (r : FileReading .code cs) {n : Node}

theorem neat_code {x : Tree} (hx : x ∈ r.code) : x.Neat := by
  obtain ⟨hnodes, hfields⟩ := r.nests_code
  obtain ⟨hfirst, hitems⟩ := hfields x hx
  have hmem {m : Node} (hm : m ∈ x.nodes) : m ∈ Tree.nodesAll r.code :=
    Tree.mem_nodesAll.mpr ⟨x, hx, hm⟩
  refine ⟨hfirst, hitems, fun m hm => hnodes m (hmem hm), fun m hm => r.full m ?_⟩
  rw [r.nodes_node]
  exact List.mem_cons_of_mem _ (List.mem_append_left _ (hmem hm))

/-- All nodes inside a file but its comments are in its code. -/
theorem mem_nodesAll_code (hn : n ∈ r.node.tree.nodes) (hfile : n.kind ≠ .file)
    (hcomment : n.kind.isComment = false) : n ∈ Tree.nodesAll r.code := by
  rw [r.nodes_node, List.mem_cons, List.mem_append] at hn
  rcases hn with rfl | hn | hn
  · exact absurd rfl hfile
  · exact hn
  · rw [r.isComment_comments n hn] at hcomment
    cases hcomment

theorem covers_code (hn : n ∈ Tree.nodesAll r.code) (hvalid : n.start.isValid = true) :
    r.node.span.Covers n := by
  have hmem : n.start ∈ Tree.positionsAll r.code :=
    Tree.positions_subset_of_mem_nodesAll _ n hn (Tree.start_mem_positions (t := n.tree) hvalid)
  have hle : (Tree.list r.code).start ≤ n.start :=
    Tree.start_le_of_mem (by rw [Tree.positions_list]; exact r.firstLeast_code)
      (by rw [Tree.positions_list]; exact hmem)
  have hstart : r.node.span.start = Tree.startAll r.code := r.start_node
  refine ⟨?_, ?_, Tree.stop_nodes_le _ r.full n ?_⟩
  · rw [hstart]
    exact r.isValid_startAll_code
  · rw [hstart]
    rwa [Tree.start] at hle
  · rw [r.nodes_node]
    exact List.mem_cons_of_mem _ (List.mem_append_left _ hn)

/-- The comment groups of a file stand at some place and end behind their beginning. -/
theorem isValid_comments (lines : LineTable) :
    ∀ s ∈ (Baseline.capture r.node lines).comments, s.start.isValid = true ∧ s.start ≤ s.stop := by
  intro s hs
  obtain ⟨t, ht, rfl⟩ := List.mem_map.mp hs
  obtain ⟨g, hg, rfl⟩ : ∃ g ∈ r.groups, g.tree = t := List.mem_map.mp ht
  obtain ⟨ds, line, hne, hsub, rfl⟩ := r.groups_comments.exists_comments hg
  obtain ⟨c, ds, rfl⟩ := List.exists_cons_of_ne_nil hne
  have hvalid := r.isValid_comment (hsub.subset List.mem_cons_self)
  change (CommentGroup.ofComments (c :: ds) line).tree.start.isValid = true ∧
    (CommentGroup.ofComments (c :: ds) line).tree.start ≤
    (CommentGroup.ofComments (c :: ds) line).tree.stop
  rw [CommentGroup.start_tree hvalid]
  exact ⟨hvalid, Pos.le_trans (Pos.le_advance _ _)
    (@CommentGroup.stop_le_stop_tree _ line _ List.mem_cons_self)⟩

theorem commented (lines : LineTable) : (Baseline.capture r.node lines).Commented :=
  fun s hs => (r.isValid_comments lines s hs).2

/-- Whatever the new tree, a leaf that is not in it is covered. -/
theorem marks_cover (hn : n ∈ r.node.tree.nodes) (hleaf : n.isLeaf = true) {new : Node}
    (hnew : new.tree.Full) (hgone : n ∉ new.tree.nodes) (lines : LineTable) :
    ∃ s ∈ (Baseline.capture r.node lines).marks r.node.span r.node new, s.Covers n := by
  have hcode : n.kind.isComment = false := by
    rcases (Bool.or_eq_true _ _).mp hleaf with hkind | hkind
    all_goals
      rw [beq_iff_eq.mp hkind]
      rfl
  have hvalid := (r.nodesInOrder.begin n hn hcode).isValid
  have hatoms := r.isAtom_leaf n hn hleaf
  have hmem : n ∈ Tree.nodesAll r.code :=
    r.mem_nodesAll_code hn (fun h => by rw [Node.isLeaf, h] at hleaf; cases hleaf) hcode
  have hcovers := r.covers_code hmem hvalid
  have hhere : (Baseline.orEnclosing r.node.span r.node.span).Covers n :=
    Baseline.covers_orEnclosing (fun _ => hcovers) hcovers
  have hroot := r.full r.node (by rw [r.nodes_node]; exact List.mem_cons_self)
  obtain ⟨l, gs⟩ := new
  rw [Node.tree, Node.tree, Baseline.marks]
  split
  · rename_i hkind
    obtain rfl := beq_iff_eq.mp hkind
    rw [Node.tree, Tree.nodes_node] at hgone
    rw [Node.tree, Tree.Full, Tree.nodes_node, List.forall_mem_cons, Tree.forall_nodesAll] at hnew
    refine Baseline.fieldMarks_cover (r.commented lines) hvalid hatoms _ gs
      (hroot.trans hnew.1.symm) ?_
      hnew.2 ?_ (fun h => hgone (List.mem_cons_of_mem _ h)) hhere
    · -- all fields of a file but the list of its comments are code
      intro x hx hnx
      rcases List.mem_append.mp (show x ∈ r.code ++ [.list (r.groups.map (·.tree))] from hx)
        with hx | hx
      · exact r.neat_code hx
      · rw [List.mem_singleton.mp hx] at hnx
        rw [r.isComment_comments n hnx] at hcode
        cases hcode
    · change n ∈ Tree.nodesAll (r.code ++ _)
      rw [Tree.nodesAll_append]
      exact List.mem_append_left _ hmem
  · exact ⟨_, List.mem_singleton_self _, hhere⟩

end FileReading

/-- A comparison marks all of every identifier and literal that is gone. -/
theorem Baseline.compare_marks_gone {text : List Char} {file new : Node}
    {lines : LineTable} {n : Node} {p : Pos} (hfile : parseFile .code text = .ok file)
    (hnew : new.tree.conforms = true) (hn : n ∈ file.tree.nodes) (hleaf : n.isLeaf = true)
    (hgone : n ∉ new.tree.nodes) (hle : n.start ≤ p) (hlt : p < n.stop) :
    ((capture file lines).compare new .empty).2.changed.contains p = true := by
  obtain ⟨r, rfl⟩ := exists_fileReading hfile
  obtain ⟨s, hs, hcovers⟩ := r.marks_cover hn hleaf (Tree.full_of_conforms _ hnew) hgone lines
  exact EditLog.contains_commit_markAll hs (hcovers.holds hle hlt)

/-- Here one argument of a call takes the place of another: the call is still there, the argument is
not. -/
theorem Baseline.compare_marks_gone_argument :
    ∃ file new n lines, parseFile .code "package p\n\nvar a = f(x, 1)\n".toList = .ok file ∧
      new.tree.conforms = true ∧ n ∈ file.tree.nodes ∧ n.isLeaf = true ∧ n ∉ new.tree.nodes ∧
      n.start < n.stop ∧ ((capture file lines).compare new .empty).2.changed.contains
      n.start = true := by
  have hruns :
      ((parseFile .code "package p\n\nvar a = f(x, 1)\n".toList).toOption.any fun file =>
        (parseFile .code "package p\n\nvar a = f(y, 1)\n".toList).toOption.any fun new =>
          new.tree.conforms &&
            file.tree.nodes.any fun n =>
              n.isLeaf && !new.tree.nodes.contains n && decide (n.start < n.stop)) = true := by
                decide +kernel
  obtain ⟨file, hfile, hruns⟩ := exists_of_any_toOption hruns
  obtain ⟨new, -, hruns⟩ := exists_of_any_toOption hruns
  simp only [Bool.and_eq_true, List.any_eq_true, Bool.not_eq_true', decide_eq_true_eq] at hruns
  obtain ⟨hconforms, n, hn, ⟨hleaf, hcontains⟩, hlt⟩ := hruns
  have hgone : n ∉ new.tree.nodes := by
    rw [← List.contains_iff_mem, hcontains]
    exact Bool.false_ne_true
  exact ⟨file, new, n, .ofText "package p\n\nvar a = f(x, 1)\n".toList, hfile, hconforms,
    hn, hleaf, hgone, hlt, compare_marks_gone hfile hconforms hn hleaf hgone (Pos.le_refl _) hlt⟩

end Graft
