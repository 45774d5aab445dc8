import Graft.Proofs.Change.Confinement

/-! # What a comparison marks is near what changed

If a tree differs from its baseline in one statement only, what is marked lies in that statement, or
between its neighbours if another one took its place, but for the comments that the range of a
removed item is stretched over (`Baseline.compare_local`).

The way down to the statement marks nothing (`Graft.Proofs.Change.OnePlace`), and what is marked
inside of it stays there (`Graft.Proofs.Change.Confinement`).  That the neighbours leave room for no
other statement is a matter of the order of fields and items (`Baseline.exists_room`).
-/

namespace Graft

theorem Tree.Swap.nodes_subset {x y t u : Tree} (h : Swap x y t u) : x.nodes ⊆ t.nodes := by
  induction h with
  | here => exact List.Subset.refl _
  | field k fs gs _ ih =>
    exact List.Subset.trans ih (nodes_subset_node (List.mem_append_right _ List.mem_cons_self))
  | item ts us _ ih =>
    exact List.Subset.trans ih (nodes_subset_list (List.mem_append_right _ List.mem_cons_self))

namespace Baseline

variable {b : Baseline} {file : Tree} {s s' root : Node} {enclosing here room m : Span}

/-- Stretching a range that holds something leaves a range that does. -/
theorem proper_widen (hb : b.Commented) (hcomments : ∀ g ∈ b.comments, g.start.isValid = true)
    (hs : s.span.isValid = true) (hproper : s.start < s.stop) (prev next : Option Pos) :
    ((b.widen s.span prev next).isValid && !(b.widen s.span prev next).isEmpty) = true := by
  refine SpanSet.proper_iff.mpr ⟨?_, ?_⟩
  · rcases widen_start (b := b) hs prev next with heq | ⟨g, hg, heq, -⟩
    · rw [heq]
      rw [Span.isValid, Bool.and_assoc] at hs
      exact ((Bool.and_eq_true _ _).mp hs).1
    · rw [heq]
      exact hcomments g hg
  · exact Nat.lt_of_le_of_lt (widen_start_le hb s.span prev next)
      (Nat.lt_of_lt_of_le hproper (le_widen_stop hb s.span prev next))

/-! ### The room of a node -/

/-- Whether a range around a node of a value keeps clear of all nodes that are neither around it nor
inside it. -/
structure Room (t : Tree) (s : Node) (room : Span) : Prop where
  starts : ∃ n ∈ t.nodes, n.start ≤ room.start
  stops : ∃ n ∈ t.nodes, room.stop ≤ n.stop
  within : s.span.Within room
  clear : ∀ n ∈ t.nodes, n ∉ s.tree.nodes → s ∉ n.tree.nodes → n.stop ≤ room.start ∨
    room.stop ≤ n.start

/-- What stands beside a value in a row stays clear of its nodes. -/
theorem Room.clear_row {t : Tree} {fs gs : List Tree} (h : Room t s room)
    (hrow : Tree.InRow (fs ++ t :: gs)) :
    ∀ n ∈ Tree.nodesAll (fs ++ t :: gs), n ∉ s.tree.nodes → s ∉ n.tree.nodes →
      n.stop ≤ room.start ∨ room.stop ≤ n.start := by
  obtain ⟨-, hrest, hbefore⟩ := List.pairwise_append.mp hrow
  obtain ⟨hbehind, -⟩ := List.pairwise_cons.mp hrest
  obtain ⟨a, ha, hstart⟩ := h.starts
  obtain ⟨z, hz, hstop⟩ := h.stops
  intro n hn hout hover
  rw [Tree.nodesAll_append, Tree.nodesAll, List.mem_append, List.mem_append, Tree.mem_nodesAll,
    Tree.mem_nodesAll] at hn
  rcases hn with ⟨x, hx, hn⟩ | hn | ⟨y, hy, hn⟩
  · exact .inl (Pos.le_trans (hbefore x hx t List.mem_cons_self n hn a ha) hstart)
  · exact h.clear n hn hout hover
  · exact .inr (Pos.le_trans hstop (hbehind y hy z hz n hn))

theorem Room.list {t : Tree} {ts us : List Tree} (h : Room t s room)
    (hrow : Tree.InRow (ts ++ t :: us)) :
    Room (.list (ts ++ t :: us)) s room := by
  have hclear := h.clear_row hrow
  have hsub : t.nodes ⊆ (Tree.list (ts ++ t :: us)).nodes :=
    Tree.nodes_subset_list (List.mem_append_right _ List.mem_cons_self)
  rw [← Tree.nodes_list] at hclear
  obtain ⟨⟨a, ha, hstart⟩, ⟨z, hz, hstop⟩, hwithin, -⟩ := h
  exact ⟨⟨a, hsub ha, hstart⟩, ⟨z, hsub hz, hstop⟩, hwithin, hclear⟩

theorem Room.node {t : Tree} {fs gs : List Tree} (h : Room t s room) (hs : s ∈ t.nodes) (k : Kind)
    (hrow : Tree.InRow (fs ++ t :: gs)) : Room (.node k (fs ++ t :: gs)) s room := by
  have hclear := h.clear_row hrow
  have hsub : t.nodes ⊆ (Tree.node k (fs ++ t :: gs)).nodes :=
    Tree.nodes_subset_node (List.mem_append_right _ List.mem_cons_self)
  obtain ⟨⟨a, ha, hstart⟩, ⟨z, hz, hstop⟩, hwithin, -⟩ := h
  refine ⟨⟨a, hsub ha, hstart⟩, ⟨z, hsub hz, hstop⟩, hwithin, ?_⟩
  rw [Tree.nodes_node, List.forall_mem_cons]
  exact ⟨fun _ hover => absurd (hsub hs) hover, hclear⟩

variable {ts us : List Tree}

/-- The range between the neighbours of an item of a list, as far as it has any. -/
def between (s : Node) (ts us : List Tree) : Span :=
  ⟨(prevEnd ts).getD s.start, (nextStart us).getD s.stop⟩

/-- The items before an item end before its room begins. -/
theorem between_start (hts : Tree.AreInside file root ts)
    (hrow : Tree.InRow (ts ++ s.tree :: us)) :
    (∃ n ∈ Tree.nodesAll (ts ++ s.tree :: us), n.start ≤ (between s ts us).start) ∧
      (between s ts us).start ≤ s.start ∧
      ∀ n ∈ Tree.nodesAll ts, n.stop ≤ (between s ts us).start := by
  have hbefore := (List.pairwise_append.mp hrow).2.2
  rw [between, Tree.nodesAll_append, Tree.nodesAll]
  rcases prevEnd_cases hts with ⟨rfl, heq⟩ | ⟨vs, n, rfl, heq, hle⟩
  · rw [heq]
    exact ⟨⟨s, by simp [s.mem_nodes_tree], Pos.le_refl _⟩, Pos.le_refl _, List.forall_mem_nil _⟩
  · have hn : n.tree ∈ vs ++ [n.tree] := List.mem_append_right _ List.mem_cons_self
    rw [heq]
    refine ⟨⟨n, ?_, hle⟩, hbefore _ hn _ List.mem_cons_self n n.mem_nodes_tree s s.mem_nodes_tree,
      ?_⟩
    · exact List.mem_append_left _ (Tree.mem_nodesAll.mpr ⟨_, hn, n.mem_nodes_tree⟩)
    · rw [Tree.nodesAll_append, Tree.nodesAll_singleton, List.forall_mem_append]
      refine ⟨fun m hm => ?_, fun m hm => (hts _ hn).1.arranged.stop_le hm⟩
      obtain ⟨x, hx, hm⟩ := Tree.mem_nodesAll.mp hm
      have hrow := (List.pairwise_append.mp (List.pairwise_append.mp hrow).1).2.2
      exact Pos.le_trans (hrow x hx _ List.mem_cons_self m hm n n.mem_nodes_tree) hle

/-- The items behind an item begin behind its room. -/
theorem between_stop (hus : Tree.AreInside file root us)
    (hrow : Tree.InRow (ts ++ s.tree :: us)) :
    (∃ n ∈ Tree.nodesAll (ts ++ s.tree :: us), (between s ts us).stop ≤ n.stop) ∧
      s.stop ≤ (between s ts us).stop ∧
      ∀ n ∈ Tree.nodesAll us, (between s ts us).stop ≤ n.start := by
  obtain ⟨hbehind, hrow⟩ := List.pairwise_cons.mp (List.pairwise_append.mp hrow).2.1
  rw [between, Tree.nodesAll_append, Tree.nodesAll]
  rcases nextStart_cases hus with ⟨rfl, heq⟩ | ⟨n, vs, rfl, heq, hle, -⟩
  · rw [heq]
    exact ⟨⟨s, by simp [s.mem_nodes_tree], Pos.le_refl _⟩, Pos.le_refl _, List.forall_mem_nil _⟩
  · have hn : n.tree ∈ n.tree :: vs := List.mem_cons_self
    rw [heq]
    refine ⟨⟨n, ?_, hle⟩, hbehind _ hn s s.mem_nodes_tree n n.mem_nodes_tree, ?_⟩
    · exact List.mem_append_right _ (List.mem_append_right _ (Tree.mem_nodesAll.mpr
        ⟨_, hn, n.mem_nodes_tree⟩))
    · rw [Tree.nodesAll, List.forall_mem_append]
      refine ⟨fun m hm => (hus _ hn).1.arranged.start_le hm, fun m hm => ?_⟩
      obtain ⟨x, hx, hm⟩ := Tree.mem_nodesAll.mp hm
      exact Pos.le_trans hle ((List.pairwise_cons.mp hrow).1 x hx n n.mem_nodes_tree m hm)

section

variable (hlist : Tree.Inside file root (.list (ts ++ s.tree :: us)))
include hlist

theorem inside_items : Tree.AreInside file root (ts ++ s.tree :: us) :=
  fun x hx => ⟨hlist.item hx, hlist.arranged.neat.items x hx⟩

theorem inside_left : Tree.AreInside file root ts :=
  fun x hx => inside_items hlist x (List.mem_append_left _ hx)

theorem inside_right : Tree.AreInside file root us :=
  fun x hx => inside_items hlist x (List.mem_append_right _ (List.mem_cons_of_mem _ hx))

/-- An item has the room between its neighbours. -/
theorem room_between : Room (.list (ts ++ s.tree :: us)) s (between s ts us) := by
  obtain ⟨hstarts, hstart, hbefore⟩ := between_start (inside_left hlist) hlist.arranged.items
  obtain ⟨hstops, hstop, hbehind⟩ := between_stop (inside_right hlist) hlist.arranged.items
  rw [← Tree.nodes_list] at hstarts hstops
  refine ⟨hstarts, hstops, ⟨hstart, hstop⟩, fun m hm hout _ => ?_⟩
  rw [Tree.nodes_list, Tree.nodesAll_append, Tree.nodesAll, List.mem_append, List.mem_append] at hm
  rcases hm with hm | hm | hm
  · exact .inl (hbefore m hm)
  · exact absurd hm hout
  · exact .inr (hbehind m hm)

/-- A list of which an item holds something has a range, and the last item ends it. -/
theorem orEnclosing_list (hproper : s.start < s.stop) (enclosing : Span) :
    orEnclosing (Tree.list (ts ++ s.tree :: us)).span enclosing =
      (Tree.list (ts ++ s.tree :: us)).span ∧
      (nextStart us).getD (Tree.list (ts ++ s.tree :: us)).stop ≤ (between s ts us).stop := by
  have hs : s.tree ∈ ts ++ s.tree :: us := List.mem_append_right _ List.mem_cons_self
  have hmem : s ∈ (Tree.list (ts ++ s.tree :: us)).nodes :=
    Tree.nodes_subset_list hs s.mem_nodes_tree
  obtain ⟨hvalid, hle, hge⟩ := hlist.arranged.neat.covers_span hmem (hlist.arranged.spans s hmem).1
  refine ⟨if_pos (SpanSet.proper_iff.mpr ⟨hvalid, ?_⟩), ?_⟩
  · exact Nat.lt_of_le_of_lt hle (Nat.lt_of_lt_of_le hproper hge)
  · rw [between]
    rcases nextStart_cases (inside_right hlist) with ⟨rfl, hnone⟩ | ⟨w, vs, rfl, hsome, -⟩
    · rw [hnone]
      refine Tree.stopAll_le_iff.mpr (List.forall_mem_append.mpr ⟨fun x hx => ?_, ?_⟩)
      · obtain ⟨n, -, rfl, -⟩ := place_item (inside_left hlist x hx).1 (inside_left hlist x hx).2
        have hbefore := (List.pairwise_append.mp hlist.arranged.items).2.2 _ hx _ List.mem_cons_self
        exact Pos.le_trans (hbefore n n.mem_nodes_tree s s.mem_nodes_tree) (Nat.le_of_lt hproper)
      · exact List.forall_mem_singleton.mpr (Pos.le_refl _)
    · rw [hsome]
      exact Pos.le_refl _

/-- What is marked of an item that became one of another kind lies in that room. -/
theorem marks_between (hb : b.Commented) (hcomments : ∀ g ∈ b.comments, g.start.isValid = true)
    (hproper : s.start < s.stop) (hkind : s.kind ≠ s'.kind) (enclosing : Span) :
    ∀ m ∈ b.marks enclosing (.list (ts ++ s.tree :: us)) (.list (ts ++ s'.tree :: us)),
      Confined b file s (between s ts us) m := by
  have hs := (inside_items hlist s.tree (List.mem_append_right _ List.mem_cons_self)).1.arranged
  have hvalid := hs.isValid_span s.mem_nodes_tree
  obtain ⟨-, -, ⟨hstart, hstop⟩, -⟩ := room_between hlist
  obtain ⟨hhere, hend⟩ := orEnclosing_list hlist hproper enclosing
  obtain ⟨n, hn, hitems⟩ := hlist.list _ rfl
  have hmarks : b.marks enclosing (.list (ts ++ s.tree :: us)) (.list (ts ++ s'.tree :: us)) =
      orEnclosing (b.widen s.span (prevEnd ts) (nextStart us))
      (Tree.list (ts ++ s.tree :: us)).span ::
        gapMarks (Tree.list (ts ++ s.tree :: us)).span (some s.stop) (nextStart us) := by
    have hvalid : valid? s.stop = some s.stop := if_pos (hs.isValid_stop s.mem_nodes_tree)
    rw [b.marks_item_of_kind_ne hkind]
    dsimp only
    rw [hhere, hvalid]
  rw [hmarks, List.forall_mem_cons]
  have hle : (between s ts us).start ≤ (some s.stop).getD
      (Tree.list (ts ++ s.tree :: us)).span.start :=
    Pos.le_trans hstart (Nat.le_of_lt hproper)
  refine ⟨?_, fun m hm => .of_within (within_gapMarks hle hend m hm)⟩
  rw [orEnclosing, if_pos (proper_widen hb hcomments hvalid hproper _ _)]
  refine confined_widen s.mem_nodes_tree hvalid ⟨hstart, hstop⟩ (fun p hp => ?_) (fun hnone => ?_)
    (fun q hq => ?_) fun hnone => ?_
  · rw [between, hp]
    exact Pos.le_refl _
  · rcases prevEnd_cases (inside_left hlist) with ⟨rfl, -⟩ | ⟨vs, w, -, hsome, -⟩
    · exact ⟨n, hn, us, hitems⟩
    · rw [hsome] at hnone
      cases hnone
  · rw [between, hq]
    exact Pos.le_refl _
  · rcases nextStart_cases (inside_right hlist) with ⟨rfl, -⟩ | ⟨w, vs, -, hsome, -⟩
    · exact ⟨n, hn, ts, hitems⟩
    · rw [hsome] at hnone
      cases hnone

end

/-- **A node in which the trees differ has room around it**, in which all is that is marked, but for
comments. -/
theorem exists_room (hb : b.Commented) (hcomments : ∀ g ∈ b.comments, g.start.isValid = true)
    (hroot : root.tree.nodes ⊆ file.nodes) (hproper : s.start < s.stop)
    (hne : s.tree ≠ s'.tree) {t u : Tree} (h : Tree.Swap s.tree s'.tree t u)
    (ht : Tree.Inside file root t) (enclosing : Span) :
    ∃ room, Room t s room ∧ ∀ m ∈ b.marks enclosing t u, Confined b file s room m := by
  induction h generalizing enclosing with
  | here =>
    have hs : s ∈ s.tree.nodes := s.mem_nodes_tree
    refine ⟨s.span, ⟨⟨s, hs, Pos.le_refl _⟩, ⟨s, hs, Pos.le_refl _⟩, ⟨Pos.le_refl _, Pos.le_refl _⟩,
      fun n hn hout _ => absurd hn hout⟩, ?_⟩
    exact marks_changed (fun n hn => hroot (ht.nodes hn)) ht.arranged hproper enclosing
  | @field t u k fs gs h ih =>
    have ht' := ht.field hroot (x := t) (List.mem_append_right _ List.mem_cons_self)
    rw [b.marks_field (h.isNil_eq rfl)]
    obtain ⟨room, hroom, hmarks⟩ := ih ht' _
    refine ⟨room, hroom.node (h.nodes_subset s.mem_nodes_tree) k ?_, hmarks⟩
    exact (ht.arranged.fields ⟨k, fs ++ t :: gs⟩ (Node.mem_nodes_tree ⟨k, _⟩)).1
  | @item t u ts us h ih =>
    have hmem : t ∈ ts ++ t :: us := List.mem_append_right _ List.mem_cons_self
    have ht' := ht.item hmem
    have hkind := ht.arranged.neat.items t hmem
    by_cases heq : t.kind? = u.kind?
    · rw [b.marks_item hkind heq (h.ne hne)]
      obtain ⟨room, hroom, hmarks⟩ := ih ht' _
      exact ⟨room, hroom.list ht.arranged.items, hmarks⟩
    · cases h with
      | here =>
        exact ⟨_, room_between ht, marks_between ht hb hcomments hproper
          (fun h => heq (congrArg some h)) _⟩
      | field => exact absurd rfl heq
      | item => cases hkind

end Baseline

/-! ### The whole comparison -/

namespace FileReading

variable {cs : List Char} (r : FileReading .code cs)

/-- The code of a file lies inside of it. -/
theorem inside_code {x : Tree} (hx : x ∈ r.code) : Tree.Inside r.node.tree r.node x := by
  have hnodes : x.nodes ⊆ Tree.nodesAll r.code := fun n hn => Tree.mem_nodesAll.mpr ⟨x, hx, hn⟩
  have hfield : x ∈ r.node.fields := List.mem_append_left _ hx
  refine ⟨⟨r.neat_code hx, r.inRow_items.1 x hx, fun n hn => ?_, fun n hn => ?_⟩, fun n hn => ?_,
    fun ts hts => ?_, fun p hp => ?_, ?_⟩
  · exact ⟨r.inRow_fields.2 n (hnodes hn), r.inRow_items.2 n (hnodes hn)⟩
  · exact r.start_le_stop n (r.mem_nodes_of_code (hnodes hn))
  · exact r.mem_nodes_of_code (hnodes hn)
  · exact ⟨r.node, r.node.mem_nodes_tree, hts ▸ hfield⟩
  · rw [r.start_node]
    exact Tree.start_le_of_mem (t := .list r.code)
      (by rw [Tree.positions_list]; exact r.firstLeast_code)
      (by rw [Tree.positions_list]; exact Tree.mem_positionsAll.mpr ⟨x, hx, hp⟩)
  · exact Tree.stop_le_stop_node hfield (Nat.le_of_eq (r.full r.node r.node.mem_nodes_tree))

end FileReading

theorem Kind.isComment_of_isA_stmt {k : Kind} (h : k.isA .stmt = true) :
    k.isComment = false ∧ k ≠ .file := by
  refine ⟨isComment_of_isStmtOrDecl (by rw [isStmtOrDecl, h, Bool.true_or]), ?_⟩
  rintro rfl
  cases h

theorem Tree.Swap.node_cases {x y u : Tree} {k : Kind} {fs : List Tree}
    (h : Swap x y (.node k fs) u) :
    (x = .node k fs ∧ y = u) ∨
      ∃ gs t hs t', fs = gs ++ t :: hs ∧ u = .node k (gs ++ t' :: hs) ∧ Swap x y t t' := by
  cases h with
  | here => exact .inl ⟨rfl, rfl⟩
  | @field t t' _ gs hs h => exact .inr ⟨gs, t, hs, t', rfl, rfl, h⟩

/-- Code is in a field of a file other than the list of its comments, and only that field is
compared. -/
theorem FileReading.exists_marks {cs : List Char} (r : FileReading .code cs) {x y u : Tree}
    (h : Tree.Swap x y r.node.tree u) (hnil : x.isNil = y.isNil)
    (hcode : ∃ n ∈ x.nodes, n.kind.isComment = false) (hx : x ≠ r.node.tree) :
    ∃ ts t us t', r.code = ts ++ t :: us ∧ Tree.Swap x y t t' ∧ ∀ (b : Baseline) (enclosing : Span),
      b.marks enclosing r.node.tree u = b.marks
      (Baseline.orEnclosing r.node.span enclosing) t t' := by
  obtain ⟨n, hn, hcomment⟩ := hcode
  have htree : r.node.tree = .node .file (r.code ++ [.list (r.groups.map (·.tree))]) := rfl
  rw [htree] at h hx
  rcases h.node_cases with ⟨heq, -⟩ | ⟨ts, t, us, t', hfields, rfl, hswap⟩
  · exact absurd heq hx
  rcases List.eq_nil_or_concat us with rfl | ⟨us, z, rfl⟩
  · obtain ⟨-, hlast⟩ := List.append_inj' hfields rfl
    cases hlast
    rw [r.isComment_comments n (hswap.nodes_subset hn)] at hcomment
    cases hcomment
  · rw [hfields] at htree
    rw [List.concat_eq_append, ← List.cons_append, ← List.append_assoc] at hfields
    refine ⟨ts, t, us, t', (List.append_inj' hfields rfl).1, hswap, fun b enclosing => ?_⟩
    rw [Node.span, htree, b.marks_field (hswap.isNil_eq hnil)]

/-- **A comparison of files that differ in one statement finds changes beside it at comments
only.** -/
theorem Baseline.compare_local {text : List Char} {file new s s' n : Node}
    {lines : LineTable} {p : Pos} (hfile : parseFile .code text = .ok file)
    (hswap : Tree.Swap s.tree s'.tree file.tree new.tree) (hs : s.kind.isA .stmt = true)
    (hn : n ∈ file.tree.nodes) (hstmt : n.kind.isA .stmt = true) (hout : n ∉ s.tree.nodes)
    (hover : s ∉ n.tree.nodes) (hp : n.span.Holds p)
    (hchanged : ((capture file lines).compare new .empty).2.changed.contains p = true) :
    ∃ g ∈ (file.list .comments).map Tree.span, ∃ x ∈ s.tree.nodes,
      (n.stop ≤ s.start ∧ g.start ≤ p ∧ lines.Above g x ∧ file.tree.Leads x) ∨
      (s.stop ≤ n.start ∧ p < g.stop ∧ lines.Trails g x ∧ file.tree.Closes x) := by
  obtain ⟨r, rfl⟩ := exists_fileReading hfile
  obtain ⟨m, hm, -, hmle, hmlt⟩ := EditLog.contains_commit_markAll_iff.mp hchanged
  change m ∈ (capture r.node lines).marks r.node.span r.node.tree new.tree at hm
  obtain ⟨hscode, hsfile⟩ := Kind.isComment_of_isA_stmt hs
  obtain ⟨hncode, hnfile⟩ := Kind.isComment_of_isA_stmt hstmt
  have hne : s.tree ≠ s'.tree := by
    intro heq
    rw [heq] at hswap
    rw [← hswap.eq, marks_self] at hm
    cases hm
  have hproper := (r.place (hswap.nodes_subset s.mem_nodes_tree) hscode).2
  obtain ⟨ts, t, us, t', hcode, hswap, heq⟩ :=
    r.exists_marks hswap rfl ⟨s, s.mem_nodes_tree, hscode⟩
    fun h => hsfile (Tree.node.inj h).1
  have ht : t ∈ r.code := by
    rw [hcode]
    exact List.mem_append_right _ List.mem_cons_self
  obtain ⟨room, hroom, hmarks⟩ :=
    exists_room (r.commented lines) (fun g hg => (r.isValid_comments lines g hg).1)
    (List.Subset.refl _) hproper hne hswap (r.inside_code ht) (orEnclosing r.node.span r.node.span)
  have hclear := hroom.clear_row (by rw [← hcode]; exact r.inRow_fields.1) n
    (by rw [← hcode]; exact r.mem_nodesAll_code hn hnfile hncode) hout hover
  rw [heq] at hm
  obtain ⟨hstart, hstop⟩ := hmarks m hm
  obtain ⟨-, hle, hlt⟩ := hp
  rcases hclear with hclear | hclear
  · rcases hstart with hin | ⟨g, hg, heq, x, hx, habove, hleads⟩
    · exact absurd hlt (Nat.not_lt.mpr (Pos.le_trans hclear (Pos.le_trans hin hmle)))
    · refine ⟨g, hg, x, hx, .inl ⟨Pos.le_trans hclear hroom.within.1, heq ▸ hmle, habove, hleads⟩⟩
  · rcases hstop with hin | ⟨g, hg, heq, x, hx, htrails, hcloses⟩
    · exact absurd hmlt (Nat.not_lt.mpr (Pos.le_trans hin (Pos.le_trans hclear hle)))
    · exact ⟨g, hg, x, hx, .inr ⟨Pos.le_trans hroom.within.2 hclear, heq ▸ hmlt, htrails, hcloses⟩⟩

/-- Here the call in a block is removed, and a comment among the arguments of the next statement
stands on its line: the range of the call is stretched over that comment, and over the beginning of
the statement. -/
theorem Baseline.compare_local_call :
    ∃ (file new s s' n : Node) (lines : LineTable) (p : Pos),
      parseFile .code
      "package p\n\nfunc f() \x7b\n\tif x \x7b c() \x7d; g(1 /* two */, 2)\n\x7d\n".toList =
        .ok file ∧
      Tree.Swap s.tree s'.tree file.tree new.tree ∧ s.kind.isA .stmt = true ∧ n ∈ file.tree.nodes ∧
      n.kind.isA .stmt = true ∧ n ∉ s.tree.nodes ∧ s ∉ n.tree.nodes ∧ n.span.Holds p ∧
      ((capture file lines).compare new .empty).2.changed.contains p = true ∧
      ∃ g ∈ (file.list .comments).map Tree.span, ∃ x ∈ s.tree.nodes,
        (n.stop ≤ s.start ∧ g.start ≤ p ∧ lines.Above g x ∧ file.tree.Leads x) ∨
        (s.stop ≤ n.start ∧ p < g.stop ∧ lines.Trails g x ∧ file.tree.Closes x) := by
  let text := "package p\n\nfunc f() \x7b\n\tif x \x7b c() \x7d; g(1 /* two */, 2)\n\x7d\n".toList
  let path : List PathStep := [.field "Decls", .item 0, .field "Body", .field "List", .item 0]
  let inner : List PathStep := [.field "Body", .field "List", .item 0]
  have hruns : ((parseFile .code text).toOption.any fun file =>
      ((file.tree.at? path).bind Tree.node?).any fun (s : Node) =>
        (s.tree.editAt .remove inner).node?.any fun (s' : Node) =>
          (file.tree.editAt (.set s'.tree) path).node?.any fun new =>
            s.kind.isA .stmt && file.tree.nodes.any fun n =>
              n.kind.isA .stmt && !s.tree.nodes.contains n && !n.tree.nodes.contains s &&
                n.span.isValid &&
                decide (n.start < n.stop) &&
                ((capture file (.ofText text)).compare new .empty).2.changed.contains
                n.start) = true := by
    decide +kernel
  obtain ⟨file, hfile, hruns⟩ := exists_of_any_toOption hruns
  simp only [Option.any_eq_true, Bool.and_eq_true, List.any_eq_true, Bool.not_eq_true',
    decide_eq_true_eq] at hruns
  obtain ⟨s, hs, s', -, new, hnew, hstmt, n, hn, ⟨⟨⟨⟨hnstmt, hout⟩, hover⟩, hvalid⟩, hlt⟩,
      hchanged⟩ := hruns
  obtain ⟨t, hpath, hs⟩ := Option.bind_eq_some_iff.mp hs
  obtain rfl := Tree.tree_of_node? hs
  have hswap : Tree.Swap s.tree s'.tree file.tree new.tree := by
    rw [Tree.tree_of_node? hnew]
    exact Tree.swap_editAt _ (List.cons_ne_nil _ _) hpath
  have hnot {m : Node} {ns : List Node} (h : ns.contains m = false) : m ∉ ns := by
    rw [← List.contains_iff_mem, h]
    exact Bool.false_ne_true
  have hp : n.span.Holds n.start := ⟨hvalid, Pos.le_refl _, hlt⟩
  exact ⟨file, new, s, s', n, _, n.start, hfile, hswap, hstmt, hn, hnstmt, hnot hout,
    hnot hover, hp, hchanged, compare_local hfile hswap hstmt hn hnstmt (hnot hout)
    (hnot hover) hp hchanged⟩

/-- And here a comment in the statement before ends on the line above, with that statement's last
argument behind it: the range of the call reaches back to it. -/
theorem Baseline.compare_marks_argument :
    ∃ (file new s s' n : Node) (lines : LineTable),
      parseFile .code
      "package p\n\nfunc f() \x7b\n\tg(1, // one\n\t\t2); if x \x7b c() \x7d\n\x7d\n".toList =
        .ok file ∧
      Tree.Swap s.tree s'.tree file.tree new.tree ∧ s.kind.isA .stmt = true ∧ n ∈ file.tree.nodes ∧
      n.kind.isA .stmt = true ∧ n.stop ≤ s.start ∧
      ((capture file lines).compare new .empty).2.changed.intersects n.span = true := by
  let text := "package p\n\nfunc f() \x7b\n\tg(1, // one\n\t\t2); if x \x7b c() \x7d\n\x7d\n".toList
  let path : List PathStep := [.field "Decls", .item 0, .field "Body", .field "List", .item 1]
  let inner : List PathStep := [.field "Body", .field "List", .item 0]
  have hruns : ((parseFile .code text).toOption.any fun file =>
      ((file.tree.at? path).bind Tree.node?).any fun (s : Node) =>
        (s.tree.editAt .remove inner).node?.any fun (s' : Node) =>
          (file.tree.editAt (.set s'.tree) path).node?.any fun new =>
            s.kind.isA .stmt && file.tree.nodes.any fun n => n.kind.isA .stmt &&
              decide (n.stop ≤ s.start) &&
              ((capture file (.ofText text)).compare new .empty).2.changed.intersects
              n.span) = true := by
    decide +kernel
  obtain ⟨file, hfile, hruns⟩ := exists_of_any_toOption hruns
  simp only [Option.any_eq_true, Bool.and_eq_true, List.any_eq_true, decide_eq_true_eq] at hruns
  obtain ⟨s, hs, s', -, new, hnew, hstmt, n, hn, ⟨hnstmt, hle⟩, hchanged⟩ := hruns
  obtain ⟨t, hpath, hs⟩ := Option.bind_eq_some_iff.mp hs
  obtain rfl := Tree.tree_of_node? hs
  refine ⟨file, new, s, s', n, _, hfile, ?_, hstmt, hn, hnstmt, hle, hchanged⟩
  rw [Tree.tree_of_node? hnew]
  exact Tree.swap_editAt _ (List.cons_ne_nil _ _) hpath

end Graft
