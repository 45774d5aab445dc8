import Graft.Proofs.Layout.WordOrder

/-! # Untouched nodes can be copied

Every node of a file that was read agrees with the source, begins where the text can be cut, and is
not empty.  So it can be copied if nothing in it changed (`FileReading.copy?_of_mem`).
-/

namespace Graft

namespace Page

variable {page : Page}

/-- The values of fields that agree do so themselves, if there is a field for each. -/
theorem agrees_of_agreesFields {all ts : List Tree} {fs : List Field} (hlen : ts.length ≤ fs.length)
    (h : page.agreesFields all fs ts = true) : ∀ t ∈ ts, t.isPos = true ∨ page.agrees t = true := by
  induction ts generalizing fs with
  | nil => nofun
  | cons t ts ih =>
    cases fs with
    | nil => cases hlen
    | cons f fs =>
      have hrest : page.agreesFields all fs ts = true ∧
          (t.isPos = true ∨ page.agrees t = true) := by
        cases hpos : t.isPos with
        | true =>
          rw [agreesFields.eq_def] at h
          exact ⟨((Bool.and_eq_true _ _).mp h).2, .inl rfl⟩
        | false =>
          rw [agreesFields_cons hpos, Bool.and_eq_true] at h
          exact ⟨h.2, .inr h.1⟩
      exact List.forall_mem_cons.mpr ⟨hrest.2, ih (Nat.le_of_succ_le_succ hlen) hrest.1⟩

mutual

/-- The nodes of a value that agrees do so themselves. -/
theorem agrees_nodes (t : Tree) (h : page.agrees t = true) (hfull : t.Full) :
    ∀ n ∈ t.nodes, page.agrees n = true := by
  match t with
  | .list ts =>
    rw [agrees, agreesItems_iff] at h
    rw [Tree.nodes]
    rw [Tree.Full, Tree.nodes] at hfull
    exact agrees_nodesAll ts (fun t ht => .inr (h t ht).2) hfull
  | .node k fs =>
    rw [Tree.Full, Tree.nodes_node, List.forall_mem_cons] at hfull
    rw [Tree.nodes_node, List.forall_mem_cons]
    have hfields := h
    rw [agrees] at hfields
    exact ⟨h, agrees_nodesAll fs (agrees_of_agreesFields (Nat.le_of_eq hfull.1) hfields) hfull.2⟩
  | .nil | .pos _ | .str _ | .tok _ => exact List.forall_mem_nil _

theorem agrees_nodesAll (ts : List Tree) (h : ∀ t ∈ ts, t.isPos = true ∨ page.agrees t = true)
    (hfull : ∀ n ∈ Tree.nodesAll ts, n.fields.length = n.kind.fields.length) :
    ∀ n ∈ Tree.nodesAll ts, page.agrees n = true := by
  match ts with
  | [] => exact List.forall_mem_nil _
  | t :: ts =>
    rw [Tree.nodesAll, List.forall_mem_append] at hfull
    rw [Tree.nodesAll, List.forall_mem_append]
    obtain ⟨ht, hts⟩ := List.forall_mem_cons.mp h
    refine ⟨?_, agrees_nodesAll ts hts hfull.2⟩
    rcases ht with hpos | ht
    · cases t with
      | pos p => exact List.forall_mem_nil _
      | _ => cases hpos
    · exact agrees_nodes t ht hfull.1

end

end Page

/-! ### Tokens and comments are not empty -/

namespace Scan.Scans

variable {offset : Nat} {isOpen : Bool} {ps : List Piece} {ls : List Lexeme} {cs : List Comment}

theorem pos_lt_stop (h : Scans offset isOpen ps ls cs) (hps : Piece.AllSpelled ps)
    (hne : ∀ p ∈ ps, p.text ≠ []) {l : Lexeme} (hl : l ∈ ls) (heof : l.token ≠ .eof)
    (hsemi : l.token ≠ .semicolon) : l.pos < l.stop := by
  induction h with
  | nil hms =>
    rw [List.mem_singleton.mp (hms.mem_of_ne hsemi hl)] at heof
    exact absurd rfl heof
  | blank _ hms _ _ ih | comment _ hms _ _ ih =>
    exact ih hps.tail (fun p hp => hne p (List.mem_cons_of_mem _ hp)) (hms.mem_of_ne hsemi hl)
  | token hk _ ih =>
    rcases List.mem_cons.mp hl with rfl | hl
    · have hwidth := byteLength_pos (hne _ List.mem_cons_self)
      rw [stop_lexemeAt (hps.head hk), Pos.lt_def]
      simp only [lexemeAt, Pos.atOffset]
      omega
    · exact ih hps.tail (fun p hp => hne p (List.mem_cons_of_mem _ hp)) hl

theorem comment_pos_lt_stop (h : Scans offset isOpen ps ls cs) (hne : ∀ p ∈ ps, p.text ≠ [])
    {c : Comment} (hc : c ∈ cs) : c.pos < c.stop := by
  induction h with
  | nil => cases hc
  | blank _ _ _ _ ih | token _ _ ih => exact ih (fun p hp => hne p (List.mem_cons_of_mem _ hp)) hc
  | comment _ _ _ _ ih =>
    rcases List.mem_cons.mp hc with rfl | hc
    · have hwidth := byteLength_pos (hne _ List.mem_cons_self)
      rw [Comment.stop, utf8ByteSize_ofList, Pos.advance_atOffset, Pos.lt_def]
      simp only [Pos.atOffset]
      omega
    · exact ih (fun p hp => hne p (List.mem_cons_of_mem _ hp)) hc

end Scan.Scans

namespace FileReading

variable {d : Dialect} {cs : List Char} (r : FileReading d cs) {page : Page} {n : Node}

theorem start_lt_stop_word {w : Word} (hw : w ∈ r.words) (hsemi : w.isSemicolon = false) :
    w.start < w.stop := by
  have hne (p : Piece) (hp : p ∈ r.pieces) := r.splits.text_ne_nil hp
  cases w with
  | lexeme l =>
    have hmem := Word.mem_lexemes.mpr hw
    exact r.scans.pos_lt_stop r.splits.allSpelled hne (List.mem_append_left _ hmem)
      (r.ended.ne_eof hmem) (by simpa [Word.isSemicolon] using hsemi)
  | doc g =>
    obtain ⟨c, ds, line, rfl, hsub, -, hstart, -⟩ := r.exists_of_doc hw
    have hle : c.stop ≤ (CommentGroup.ofComments (c :: ds) line).tree.stop :=
      CommentGroup.stop_le_stop_tree List.mem_cons_self
    rw [Word.start, hstart]
    exact Nat.lt_of_lt_of_le (r.scans.comment_pos_lt_stop hne (hsub.subset List.mem_cons_self)) hle

theorem isCut_word {w : Word} (hw : w ∈ r.words) (hsemi : w.isSemicolon = false) :
    IsCut cs w.start := by
  cases w with
  | lexeme l => exact r.isCut_lexeme hw (by simpa [Word.isSemicolon] using hsemi)
  | doc g =>
    obtain ⟨c, ds, line, rfl, hsub, -, hstart, -⟩ := r.exists_of_doc hw
    rw [Word.start, hstart]
    exact (Source.isCut_of_slice? (r.slice?_comment (hsub.subset List.mem_cons_self))).1

theorem full : r.node.tree.Full := by
  have hdoc {g : CommentGroup} (hg : g ∈ r.groups) : g.tree.Full := by
    obtain ⟨ds, line, -, -, rfl⟩ := r.groups_comments.exists_comments hg
    exact CommentGroup.full_ofComments ds line
  have hws {ws : List Word} (h : ∀ w ∈ ws, w ∈ r.words) (g : CommentGroup) (hg : .doc g ∈ ws) :
      g.tree.Full := hdoc (r.run.mem_groups (h _ hg))
  rw [Tree.Full, node, FileWords.file, Node.tree, Tree.nodes_node, List.forall_mem_cons,
    Tree.forall_nodesAll]
  simp only [List.forall_mem_cons]
  refine ⟨rfl, ?_, List.forall_mem_nil _, ?_, ?_, ?_, List.forall_mem_nil _⟩
  · exact r.doc_derives.full rfl (hws (by simp +contextual [FileWords.words]))
  · exact r.name_derives.full rfl (hws (by simp +contextual [FileWords.words]))
  · exact r.decls_derive.full rfl (hws (by simp +contextual [FileWords.words]))
  · rw [Tree.nodes_list, Tree.forall_nodesAll]
    intro t ht
    obtain ⟨g, hg, rfl⟩ := List.mem_map.mp ht
    exact hdoc hg

/-- **Where a node stands**: at a place where the text can be cut, and it is not empty. -/
theorem place (hn : n ∈ r.node.tree.nodes) (hcode : n.kind.isComment = false) :
    IsCut cs n.start ∧ n.start < n.stop := by
  obtain ⟨w, hw, hsemi, -, hstart, hstop⟩ := r.nodesInOrder.begin n hn hcode
  rw [hstart]
  exact ⟨r.isCut_word hw hsemi, Nat.lt_of_lt_of_le (r.start_lt_stop_word hw hsemi) hstop⟩

/-- **A node in which nothing changed can be copied.** -/
theorem copy?_of_mem (hsrc : page.source = some (Source.ofText cs)) (hn : n ∈ r.node.tree.nodes)
    (hcode : n.kind.isComment = false) (hchanged : page.changed.intersects n.span = false) :
    ∃ text, page.copy? n = some text ∧
      (Source.ofText cs).slice? ⟨n.start, n.stop⟩ = some text := by
  obtain ⟨hcut, hlt⟩ := r.place hn hcode
  exact Page.copy?_of_agrees hsrc hcut hlt
    (Page.agrees_nodes r.node.tree (r.agrees hsrc) r.full n hn) hchanged

end FileReading

end Graft
