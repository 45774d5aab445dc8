import Graft.Proofs.Layout.Agreement

/-! # Comment groups

Grouping loses no comment and makes none up (`CommentGroup.groups_group`).  So the tree of a group
agrees with the source that its comments stand in, begins at the first of them and ends behind each.
-/

namespace Graft

namespace CommentGroup

variable {cs ds : List Comment} {gs : List CommentGroup} {lastLine : Nat}

/-- Comments put into groups in order, none of which is empty. -/
inductive Groups : List Comment → List CommentGroup → Prop where
  | nil : Groups [] []
  | cons {ds cs : List Comment} {gs : List CommentGroup} (lastLine : Nat) (hne : ds ≠ [])
      (h : Groups cs gs) : Groups (ds ++ cs) (ofComments ds lastLine :: gs)

theorem groups_groupFrom (lines : LineTable) (open_ : List Comment) (lastLine : Nat)
    (cs : List Comment) : Groups (open_ ++ cs) (groupFrom lines open_ lastLine cs) := by
  fun_induction groupFrom lines open_ lastLine cs with
  | case1 open_ lastLine hempty =>
    obtain rfl := List.isEmpty_iff.mp hempty
    exact .nil
  | case2 open_ lastLine hne => exact .cons lastLine (by simpa using hne) .nil
  | case3 open_ lastLine c cs line endLine hcond ih =>
    refine .cons lastLine ?_ ih
    rintro rfl
    cases hcond
  | case4 open_ lastLine c cs line endLine _ ih => simpa using ih

/-- **The groups of a text hold its comments in order.** -/
theorem groups_group (lines : LineTable) (cs : List Comment) : Groups cs (group lines cs) :=
  groups_groupFrom lines [] 0 cs

/-- Every group is made of some of the comments. -/
theorem Groups.exists_comments (h : Groups cs gs) {g : CommentGroup} (hg : g ∈ gs) :
    ∃ ds lastLine, ds ≠ [] ∧ ds.Sublist cs ∧ g = ofComments ds lastLine := by
  induction h with
  | nil => cases hg
  | @cons ds cs gs lastLine hne _ ih =>
    rcases List.mem_cons.mp hg with rfl | hg
    · exact ⟨ds, lastLine, hne, List.sublist_append_left _ _, rfl⟩
    · obtain ⟨es, line, hes, hsub, rfl⟩ := ih hg
      exact ⟨es, line, hes, hsub.trans (List.sublist_append_right _ _), rfl⟩

/-- Every comment is in a group. -/
theorem Groups.exists_group (h : Groups cs gs) {c : Comment} (hc : c ∈ cs) :
    ∃ ds lastLine, c ∈ ds ∧ ofComments ds lastLine ∈ gs := by
  induction h with
  | nil => cases hc
  | cons lastLine _ _ ih =>
    rcases List.mem_append.mp hc with hc | hc
    · exact ⟨_, lastLine, hc, List.mem_cons_self⟩
    · obtain ⟨es, line, hes, hmem⟩ := ih hc
      exact ⟨es, line, hes, List.mem_cons_of_mem _ hmem⟩

/-! ### The tree of a group -/

theorem agrees_tree {page : Page} (h : ∀ c ∈ ds, page.hasText c.pos c.text = true) :
    page.agrees (ofComments ds lastLine).tree = true := by
  have hitems : page.agreesItems (ds.map fun c => .node .comment [.pos c.pos, .str c.text]) =
      true := by
    rw [Page.agreesItems_iff]
    intro t ht
    obtain ⟨c, hc, rfl⟩ := List.mem_map.mp ht
    refine ⟨rfl, ?_⟩
    rw [Page.agrees, Kind.fields, Page.agreesFields_pos rfl, Page.tokenAgrees_str rfl (h c hc)]
    rfl
  rw [ofComments, Page.agrees, Kind.fields, Page.agreesFields_cons rfl, Page.agrees, hitems]
  rfl

theorem stop_le_stop_tree {c : Comment} (hc : c ∈ ds) :
    c.stop ≤ (ofComments ds lastLine).tree.stop := by
  have hitem : c.stop ≤ (Tree.node .comment [.pos c.pos, .str c.text]).stop := by
    rw [Tree.stop]
    exact Tree.advance_le_stopFields rfl rfl
  have hlist := Tree.stop_le_stopAll
    (List.mem_map_of_mem (f := fun c : Comment => Tree.node .comment [.pos c.pos, .str c.text]) hc)
  rw [← Tree.stop_list] at hlist
  rw [ofComments, Tree.stop]
  exact Pos.le_trans hitem (Pos.le_trans hlist Tree.stop_le_stopFields)

theorem start_tree {c : Comment} (hc : c.pos.isValid = true) :
    (ofComments (c :: ds) lastLine).tree.start = c.pos := by
  have hpos : (Tree.pos c.pos).start = c.pos := by rw [Tree.start]
  have hitem : (Tree.node .comment [.pos c.pos, .str c.text]).start = c.pos := by
    rw [Tree.start, Tree.startAll_of_isValid (by rw [hpos]; exact hc), hpos]
  have hlist : (Tree.list ((c :: ds).map fun c => .node .comment [.pos c.pos, .str c.text])).start =
      c.pos := by
    rw [Tree.start, List.map_cons, Tree.startAll_of_isValid (by rw [hitem]; exact hc), hitem]
  rw [ofComments, Tree.start, Tree.startAll_of_isValid (by rw [hlist]; exact hc), hlist]

theorem start_ofComments {c : Comment} (hc : c.pos.isValid = true) :
    (ofComments (c :: ds) lastLine).start = c.pos := by
  exact if_pos hc

/-- A group ends behind its first comment. -/
theorem stop_head_le {c : Comment} (h : (c :: ds).Pairwise (fun c d => c.stop ≤ d.pos)) :
    c.stop ≤ (ofComments (c :: ds) lastLine).stop := by
  obtain ⟨hhead, -⟩ := List.pairwise_cons.mp h
  cases hlast : ds.getLast? with
  | none =>
    rw [List.getLast?_eq_none_iff.mp hlast]
    exact Pos.le_refl _
  | some e =>
    have hstop : (ofComments (c :: ds) lastLine).stop = e.stop := by
      simp [ofComments, List.getLast?_cons, hlast]
    rw [hstop]
    exact Pos.le_trans (hhead e (List.mem_of_getLast? hlast)) (Pos.le_advance _ _)

end CommentGroup

end Graft
