import Graft.Proofs.Grammar.Positions
import Graft.Proofs.Layout.Declarations

/-! # The words of a file in order

The words of a file that was read stand in the order of the text, comments among them
(`FileReading.pairwise_words`), and so do its nodes (`FileReading.nodesInOrder`).
-/

namespace Graft

/-- A comment behind the beginning of a token stands behind the token. -/
theorem Scan.Scans.stop_le_comment {offset : Nat} {isOpen : Bool} {ps : List Piece}
    {ls : List Lexeme} {cs : List Comment} (h : Scans offset isOpen ps ls cs)
    (hps : Piece.AllSpelled ps) {l : Lexeme} (hl : l ∈ ls) (hsemi : l.token ≠ .semicolon)
    {c : Comment} (hc : c ∈ cs) (hlt : l.pos < c.pos) :
    l.stop ≤ c.pos := by
  induction h with
  | nil => cases hc
  | blank _ hms _ _ ih => exact ih hps.tail (hms.mem_of_ne hsemi hl) hc
  | comment _ hms _ hs ih =>
    rcases List.mem_cons.mp hc with rfl | hc
    · have hle := Pos.le_of_atOffset_add_le (hs.le_pos (hms.mem_of_ne hsemi hl))
      exact absurd hlt (Nat.not_lt_of_le hle)
    · exact ih hps.tail (hms.mem_of_ne hsemi hl) hc
  | token hk hs ih =>
    rcases List.mem_cons.mp hl with rfl | hl
    · rw [stop_lexemeAt (hps.head hk)]
      exact hs.le_comment_pos hc
    · exact ih hps.tail hl hc

/-- The tree of a group ends where its last comment ends. -/
theorem CommentGroup.stop_tree_le {ds : List Comment} {lastLine : Nat}
    (h : ds.Pairwise (fun c d => c.stop ≤ d.pos)) :
    (ofComments ds lastLine).tree.stop ≤ (ofComments ds lastLine).stop := by
  have hcomment (c : Comment) : (Tree.node .comment [.pos c.pos, .str c.text]).stop ≤ c.stop :=
    Nat.max_le.mpr ⟨Pos.le_refl _, Nat.zero_le _⟩
  have hlist (ts : List Tree) : (Tree.node .commentGroup [.list ts]).stop ≤ Tree.stopAll ts := by
    rw [← Tree.stop_list]
    exact Nat.max_le.mpr ⟨Pos.le_refl _, Nat.zero_le _⟩
  refine Pos.le_trans (hlist _) (Tree.stopAll_le_iff.mpr fun t ht => ?_)
  obtain ⟨c, hc, rfl⟩ := List.mem_map.mp ht
  refine Pos.le_trans (hcomment c) ?_
  obtain ⟨front, e, rfl⟩ : ∃ front e, ds = front ++ [e] :=
    ⟨_, _, (List.dropLast_concat_getLast (List.ne_nil_of_mem hc)).symm⟩
  have hstop : (ofComments (front ++ [e]) lastLine).stop = e.stop := by simp [ofComments]
  rw [hstop]
  rcases List.mem_append.mp hc with hc | hc
  · have hle := (List.pairwise_append.mp h).2.2 c hc e (List.mem_singleton_self e)
    exact Pos.le_trans hle (Pos.le_advance _ _)
  · rw [List.mem_singleton.mp hc]
    exact Pos.le_refl _

theorem CommentGroup.isComment_nodes (ds : List Comment) (lastLine : Nat) :
    ∀ n ∈ (ofComments ds lastLine).tree.nodes, n.kind.isComment = true := by
  rw [ofComments, Tree.nodes_node, List.forall_mem_cons, Tree.nodesAll_singleton, Tree.nodes_list,
    Tree.forall_nodesAll]
  refine ⟨rfl, fun t ht => ?_⟩
  obtain ⟨c, -, rfl⟩ := List.mem_map.mp ht
  exact List.forall_mem_singleton.mpr rfl

namespace FileReading

variable {d : Dialect} {cs : List Char} (r : FileReading d cs)

theorem isValid_comment {c : Comment} (hc : c ∈ r.comments) : c.pos.isValid = true :=
  (Source.isCut_of_slice? (r.slice?_comment hc)).1.isValid

/-- A comment above a node is a group of comments, the first of which it begins with. -/
theorem exists_of_doc {g : CommentGroup} (hg : .doc g ∈ r.words) :
    ∃ c ds line, g = .ofComments (c :: ds) line ∧ (c :: ds).Sublist r.comments ∧ g.start = c.pos ∧
      g.tree.start = c.pos ∧ g.tree.stop ≤ g.stop := by
  obtain ⟨ds, line, hne, hsub, rfl⟩ := r.groups_comments.exists_comments (r.run.mem_groups hg)
  obtain ⟨c, ds, rfl⟩ := List.exists_cons_of_ne_nil hne
  have hvalid := r.isValid_comment (hsub.subset List.mem_cons_self)
  exact ⟨c, ds, line, rfl, hsub, CommentGroup.start_ofComments hvalid,
    CommentGroup.start_tree hvalid, CommentGroup.stop_tree_le
    (r.scans.pairwise_comments.sublist hsub)⟩

theorem placed {w : Word} (hw : w ∈ r.words) : w.Placed := by
  cases w with
  | lexeme l => exact r.isValid_lexeme hw
  | doc g =>
    obtain ⟨c, ds, line, rfl, hsub, -, hstart, -⟩ := r.exists_of_doc hw
    refine ⟨?_, rfl, ?_⟩
    · rw [hstart]
      exact r.isValid_comment (hsub.subset List.mem_cons_self)
    · exact CommentGroup.isComment_nodes _ _

theorem followed : Word.Followed r.words := by
  have hend : Word.Followed r.endWords := by
    rcases r.end_isEnd with h | ⟨l, -, h⟩
    · rw [h]
      trivial
    · rw [h]
      trivial
  have hrest : Word.Followed (.lexeme r.package :: (r.nameWords ++ (r.endWords ++ r.declWords))) :=
    (r.name_derives.followed rfl).append (hend.append (r.decls_derive.followed rfl))
  rw [FileWords.words]
  rcases r.doc_derives.doc_cases with ⟨h, -⟩ | ⟨g, h, -⟩
  · rw [h]
    exact hrest
  · rw [h]
    exact ⟨⟨_, _, rfl⟩, hrest⟩

theorem lexeme_before_doc {a b : List Word} {l : Lexeme} {g : CommentGroup}
    (h : r.words = a ++ .doc g :: b) (hl : .lexeme l ∈ a) : (Word.lexeme l).Before (.doc g) := by
  obtain ⟨c, ds, line, -, hsub, hstart, htree, -⟩ :=
    r.exists_of_doc (show .doc g ∈ r.words by simp [h])
  have horder := r.pairwise_lexemes
  rw [h, Word.lexemes_append] at horder
  have hl := Word.mem_lexemes.mpr hl
  obtain ⟨m, hm⟩ : ∃ m, (Word.lexemes a).getLast? = some m :=
    ⟨_, List.getLast?_eq_some_getLast (List.ne_nil_of_mem hl)⟩
  have hrun := r.run
  rw [h] at hrun
  have hlt := hrun.pos_lt_start hm
  have hle := Lexeme.pos_le_of_getLast? (List.pairwise_append.mp horder).1 hl hm
  rw [hstart] at hlt
  have hlt : l.pos < c.pos := Nat.lt_of_le_of_lt hle hlt
  have hmem : l ∈ Word.lexemes r.words ++ [r.last] := by
    rw [h, Word.lexemes_append]
    exact List.mem_append_left _ (List.mem_append_left _ hl)
  rw [Word.Before, Word.start, Word.start, htree]
  refine ⟨Nat.le_of_lt hlt, fun hsemi => ?_⟩
  exact r.scans.stop_le_comment r.splits.allSpelled hmem (by simpa [Word.isSemicolon] using hsemi)
    (hsub.subset List.mem_cons_self) hlt

theorem doc_before_lexeme {a b : List Word} {l : Lexeme} {g : CommentGroup}
    (h : r.words = a ++ .doc g :: .lexeme l :: b) :
    g.tree.start ≤ l.pos ∧ g.tree.stop ≤ l.pos := by
  obtain ⟨c, ds, line, rfl, -, -, htree, hstop⟩ :=
    r.exists_of_doc (show .doc g ∈ r.words by simp [h])
  have hrun := r.run
  rw [h] at hrun
  have hle := Pos.le_trans hstop hrun.stop_le_pos
  refine ⟨Pos.le_trans ?_ hle, hle⟩
  rw [htree]
  exact Pos.le_trans (Pos.le_advance _ _) (CommentGroup.stop_le_stop_tree List.mem_cons_self)

/-- **The words of a file stand in order.** -/
theorem pairwise_words : r.words.Pairwise Word.Before := by
  suffices h : ∀ b a, r.words = a ++ b → b.Pairwise Word.Before from h r.words [] rfl
  intro b
  induction b with
  | nil => exact fun _ _ => .nil
  | cons v b ih =>
    intro a h
    have hb := ih (a ++ [v]) (by simp [h])
    refine List.pairwise_cons.mpr ⟨fun w hw => ?_, hb⟩
    cases v with
    | doc g =>
      -- the lexeme behind the comment stands between
      have hfollowed := r.followed
      rw [h] at hfollowed
      obtain ⟨l, us, rfl⟩ := hfollowed.exists_lexeme
      obtain ⟨hstart, hstop⟩ := r.doc_before_lexeme h
      have hle : l.pos ≤ w.start := by
        rcases List.mem_cons.mp hw with rfl | hw
        · exact Pos.le_refl _
        · exact ((List.pairwise_cons.mp hb).1 w hw).1
      exact ⟨Pos.le_trans hstart hle, fun _ => Pos.le_trans hstop hle⟩
    | lexeme l =>
      cases w with
      | doc g =>
        obtain ⟨b₁, b₂, rfl⟩ := List.append_of_mem hw
        exact r.lexeme_before_doc (a := a ++ .lexeme l :: b₁) (b := b₂) (by simp [h]) (by simp)
      | lexeme m =>
        have horder := r.pairwise_lexemes
        rw [h, Word.lexemes_append, Word.lexemes_lexeme] at horder
        obtain ⟨hstart, hstop⟩ := (List.pairwise_cons.mp (List.pairwise_append.mp horder).2.1).1 m
          (Word.mem_lexemes.mpr hw)
        exact ⟨hstart, fun hsemi => hstop (by simpa [Word.isSemicolon] using hsemi)⟩

theorem pairwise_start : r.words.Pairwise (fun v w => v.start ≤ w.start) :=
  r.pairwise_words.imp fun h => h.1

/-! ### The nodes of a file -/

/-- The fields of a file but the list of all comments. -/
def code : List Tree := [r.doc, .pos r.package.pos, r.name, .list r.decls]

theorem inOrder_code : InOrder r.words r.code r.node.stop := by
  have horder := r.pairwise_start
  have hplaced (w : Word) (hw : w ∈ r.words) := r.placed hw
  simp only [FileWords.words] at horder hplaced ⊢
  simp only [List.forall_mem_append, List.forall_mem_cons] at hplaced
  obtain ⟨hdocs, -, hnames, -, hdecls⟩ := hplaced
  obtain ⟨h₁, h₂, hdoc⟩ := List.pairwise_append.mp horder
  obtain ⟨hpackage, h₂⟩ := List.pairwise_cons.mp h₂
  obtain ⟨h₃, h₄, hname⟩ := List.pairwise_append.mp h₂
  have h₄ := (List.pairwise_append.mp h₄).2.1
  have hstop {t : Tree} (ht : t ∈ r.node.fields) : t.stop ≤ r.node.stop := r.stop_field ht
  have hdecls' := ((r.decls_derive.placing rfl hdecls h₄).1 rfl).1.mono
    (fun w hw => List.mem_append_right r.endWords hw) (hstop (by simp [node, FileWords.file]))
  have hname' := ((r.name_derives.placing rfl hnames h₃).1 rfl).1.append hdecls' hname
    (hstop (by simp [node, FileWords.file])) (Pos.le_refl _)
  have hpackage' := (InOrder.token List.mem_cons_self (r.isValid_lexeme r.package_mem)
    (by rw [r.package_token]; decide) r.stop_package).append hname'
    (List.forall_mem_singleton.mpr hpackage) (Pos.le_refl _) (Pos.le_refl _)
  exact ((r.doc_derives.placing rfl hdocs h₁).1 rfl).1.append hpackage' hdoc
    (hstop (by simp [node, FileWords.file])) (Pos.le_refl _)

theorem isValid_startAll_code : (Tree.startAll r.code).isValid = true := by
  have hpackage : (Tree.pos r.package.pos).start.isValid = true := by
    rw [Tree.start]
    exact r.isValid_lexeme r.package_mem
  rw [code, Tree.startAll]
  split
  · assumption
  · rw [Tree.startAll_of_isValid hpackage]
    exact hpackage

theorem start_node : r.node.start = Tree.startAll r.code := by
  rw [Node.start, node, FileWords.file, Node.tree, Tree.start]
  change Tree.startAll (r.code ++ _) = _
  rw [Tree.startAll_append, if_pos r.isValid_startAll_code]

theorem nodes_node : r.node.tree.nodes =
    r.node :: (Tree.nodesAll r.code ++ (Tree.list (r.groups.map (·.tree))).nodes) := by
  rw [node, FileWords.file, Node.tree, Tree.nodes_node, ← Tree.nodesAll_singleton,
    ← Tree.nodesAll_append]
  rfl

theorem isComment_comments :
    ∀ n ∈ (Tree.list (r.groups.map (·.tree))).nodes, n.kind.isComment = true := by
  rw [Tree.nodes_list, Tree.forall_nodesAll]
  intro t ht
  obtain ⟨g, hg, rfl⟩ := List.mem_map.mp ht
  obtain ⟨ds, line, -, -, rfl⟩ := r.groups_comments.exists_comments hg
  exact CommentGroup.isComment_nodes ds line

/-- **The nodes of a file stand in order**, each at the place of a word. -/
theorem nodesInOrder : NodesInOrder r.words r.node.tree.nodes := by
  have hcode := r.inOrder_code
  have hcomment {n : Node} (hn : n ∈ (Tree.list (r.groups.map (·.tree))).nodes) :
      ¬ n.kind.isComment = false := by
    rw [r.isComment_comments n hn]
    nofun
  have hrest : NodesInOrder r.words
      (Tree.nodesAll r.code ++ (Tree.list (r.groups.map (·.tree))).nodes) := by
    refine hcode.nodes.append ⟨fun n hn h => absurd h (hcomment hn),
      List.pairwise_of_forall_mem_list fun n hn m _ h => absurd h (hcomment hn)⟩
      fun n hn m hm h h' => ?_
    exact absurd (Kind.isComment_of_isStmtOrDecl h') (hcomment hm)
  rw [r.nodes_node]
  refine ⟨List.forall_mem_cons.mpr ⟨fun _ => ?_, hrest.begin⟩,
    List.pairwise_cons.mpr ⟨fun m hm _ hkind => ?_, hrest.sorted⟩⟩
  · rw [r.start_node]
    exact hcode.start r.isValid_startAll_code
  · rw [r.start_node]
    rcases List.mem_append.mp hm with hm | hm
    · exact hcode.first m hm hkind
    · exact absurd (Kind.isComment_of_isStmtOrDecl hkind) (hcomment hm)

end FileReading

end Graft
