import Graft.Proofs.Grammar.ReadFile
import Graft.Proofs.Layout.Comments

/-! # Files that were read

A `FileReading` holds all that went into a file: the pieces of the text, their lexemes and comments,
and the words that the file was put together from.  Every file that is read has one
(`exists_fileReading`).  From it follows where the file stands: it agrees with its source, begins at
the comment above its package clause or at the clause itself, and ends behind every token and
comment.
-/

namespace Graft

theorem Ended.ne_eof {ls : List Lexeme} {m : Lexeme} (h : Ended (ls ++ [m])) {l : Lexeme}
    (hl : l ∈ ls) : l.token ≠ .eof := by
  induction ls with
  | nil => cases hl
  | cons n ls ih =>
    have hn : n.token ≠ .eof ∧ Ended (ls ++ [m]) := by
      cases ls with
      | nil => exact h
      | cons => exact h
    rcases List.mem_cons.mp hl with rfl | hl
    · exact hn.1
    · exact ih hn.2 hl

theorem Ended.eof {ls : List Lexeme} {m : Lexeme} (h : Ended (ls ++ [m])) : m.token = .eof := by
  induction ls with
  | nil => exact h
  | cons n ls ih =>
    cases ls with
    | nil => exact h.2
    | cons => exact ih h.2

/-- How a text was read as a file. -/
structure FileReading (d : Dialect) (cs : List Char) extends FileWords d where
  pieces : List Piece
  splits : Piece.Splits cs pieces
  /-- The end of the text. -/
  last : Lexeme
  comments : List Comment
  scans : Scan.Scans 0 false pieces (Word.lexemes toFileWords.words ++ [last]) comments
  groups : List CommentGroup
  groups_comments : CommentGroup.Groups comments groups
  stop : Cursor
  stop_rest : stop.rest = [last]
  run : Run groups ⟨Word.lexemes toFileWords.words ++ [last], none⟩ toFileWords.words stop

namespace FileReading

variable {d : Dialect} {cs : List Char}

/-- The file that was read. -/
def node (r : FileReading d cs) : Node := r.file (r.groups.map (·.tree))

end FileReading

/-- The reading of a file is one of the lexemes and comments of its text. -/
theorem exists_fileReading_of_scan {d : Dialect} {cs : List Char} {scan : Scan} {file : Node}
    (hscan : Scan.ofText d cs = .ok scan) (h : parseFile d cs = .ok file) :
    ∃ r : FileReading d cs, file = r.node ∧ scan.lexemes = Word.lexemes r.words ++ [r.last] ∧
      scan.comments = r.comments ∧ r.groups = CommentGroup.group (.ofText cs) scan.comments := by
  obtain ⟨scan', hscan', h⟩ := exists_of_bind_ok h
  obtain rfl : scan = scan' := Except.ok.inj (hscan.symm.trans hscan')
  obtain ⟨⟨file', c'⟩, hfile, h⟩ := exists_of_bind_ok h
  cases h
  obtain ⟨ps, hsplits, hscans⟩ := Scan.scans_of_ofText hscan
  have he : Ended scan.lexemes := hscans.ended hsplits.allSpelled
  obtain ⟨f, hrun, heof, rfl⟩ := (Rules.upTo_sound _).file_run (c := ⟨scan.lexemes, none⟩) he hfile
  obtain ⟨last, -, hrest⟩ := (hrun.ended he).eq_singleton heof
  have hlexemes : scan.lexemes = Word.lexemes f.words ++ [last] := by
    rw [← hrest]
    exact hrun.rest_eq
  rw [hlexemes] at hscans hrun
  exact ⟨{ f with
    pieces := ps, splits := hsplits, last := last, comments := scan.comments, scans := hscans
    groups := _, groups_comments := CommentGroup.groups_group _ _
    stop := c', stop_rest := hrest, run := hrun }, rfl, hlexemes, rfl, rfl⟩

/-- **Every file that is read has a reading.** -/
theorem exists_fileReading {d : Dialect} {cs : List Char} {file : Node}
    (h : parseFile d cs = .ok file) : ∃ r : FileReading d cs, file = r.node := by
  obtain ⟨scan, hscan, -⟩ := exists_of_bind_ok h
  obtain ⟨r, hr, -⟩ := exists_fileReading_of_scan hscan h
  exact ⟨r, hr⟩

namespace FileReading

variable {d : Dialect} {cs : List Char} (r : FileReading d cs) {page : Page}

/-! ### The words stand in the source -/

theorem ended : Ended (Word.lexemes r.words ++ [r.last]) := r.scans.ended r.splits.allSpelled

theorem pairwise_lexemes : (Word.lexemes r.words).Pairwise Lexeme.Before :=
  (List.pairwise_append.mp (r.scans.pairwise r.splits.allSpelled)).1

theorem text_eq : (Source.ofText cs).text = [] ++ Piece.texts r.pieces := r.splits.texts_eq.symm

theorem slice?_comment {c : Comment} (hc : c ∈ r.comments) :
    (Source.ofText cs).slice? ⟨c.pos, c.stop⟩ = some c.text.toList :=
  r.scans.slice?_comment r.text_eq rfl hc

theorem hasText_comment (hsrc : page.source = some (Source.ofText cs)) {c : Comment}
    (hc : c ∈ r.comments) : page.hasText c.pos c.text = true := by
  have hslice := r.slice?_comment hc
  have hvalid : c.pos.isValid = true := (Source.isCut_of_slice? hslice).1.isValid
  rw [Comment.stop] at hslice
  rw [Page.hasText, hsrc]
  simp [hvalid, hslice]

theorem stands_lexeme (hsrc : page.source = some (Source.ofText cs)) {l : Lexeme}
    (hl : l ∈ Word.lexemes r.words) : (Word.lexeme l).Stands page := by
  by_cases hsemi : l.token = .semicolon
  · exact .inl hsemi
  · have hslice := r.scans.slice?_lexeme r.splits.allSpelled r.text_eq rfl
      (List.mem_append_left _ hl) (r.ended.ne_eof hl) hsemi
    have hvalid : l.pos.isValid = true := (Source.isCut_of_slice? hslice).1.isValid
    rw [Lexeme.stop] at hslice
    refine .inr ?_
    rw [Page.hasText, hsrc]
    simp [hvalid, hslice]

/-- **All words of a file stand in its source.** -/
theorem stands (hsrc : page.source = some (Source.ofText cs)) {w : Word} (hw : w ∈ r.words) :
    w.Stands page := by
  cases w with
  | lexeme l => exact r.stands_lexeme hsrc (Word.mem_lexemes.mpr hw)
  | doc g =>
    obtain ⟨ds, line, -, hsub, rfl⟩ := r.groups_comments.exists_comments (r.run.mem_groups hw)
    exact ⟨rfl, CommentGroup.agrees_tree (fun c hc => r.hasText_comment hsrc (hsub.subset hc))⟩

/-- **A file agrees with its source.** -/
theorem agrees (hsrc : page.source = some (Source.ofText cs)) :
    page.agrees r.node.tree = true := by
  have stands {ws : List Word} (h : ∀ w ∈ ws, w ∈ r.words) : ∀ w ∈ ws, w.Stands page :=
    fun w hw => r.stands hsrc (h w hw)
  have hdoc := (r.doc_derives.agreeing (stands (by simp +contextual [FileWords.words]))).1 rfl
  have hname := (r.name_derives.agreeing (stands (by simp +contextual [FileWords.words]))).1 rfl
  have hdecls := (r.decls_derive.agreeing (stands (by simp +contextual [FileWords.words]))).1 rfl
  have hpackage := (r.stands hsrc (w := .lexeme r.package) (by simp [FileWords.words])).hasText
    (by rw [r.package_token]; rfl)
  have hcomments : page.agrees (.list (r.groups.map (·.tree))) = true := by
    rw [Page.agrees, Page.agreesItems_iff]
    intro t ht
    obtain ⟨g, hg, rfl⟩ := List.mem_map.mp ht
    obtain ⟨ds, line, -, hsub, rfl⟩ := r.groups_comments.exists_comments hg
    exact ⟨rfl, CommentGroup.agrees_tree (fun c hc => r.hasText_comment hsrc (hsub.subset hc))⟩
  rw [node, FileWords.file, Node.tree, Page.agrees, Kind.fields, Page.agreesFields_cons hdoc.2.1,
    Page.agreesFields_pos rfl,
    Page.tokenAgrees_of_hasText (t := r.package.token) (by rw [r.package_token]; rfl) hpackage,
    Page.agreesFields_cons hname.2.1, Page.agreesFields_cons hdecls.2.1, Page.agreesFields_cons rfl,
    hdoc.1, hname.1, hdecls.1, hcomments]
  rfl

/-! ### Where a file ends -/

theorem stop_field {t : Tree} (ht : t ∈ r.node.fields) : t.stop ≤ r.node.stop :=
  Tree.stop_le_stop_node ht (Nat.le_refl 5)

theorem stop_package : r.package.stop ≤ r.node.stop := by
  have hwidth : r.package.spelling.utf8ByteSize = (Token.text .kwPackage).utf8ByteSize := by
    rw [Lexeme.spelling_of_not_carriesText (by rw [r.package_token]; rfl), r.package_token]
  rw [Lexeme.stop, hwidth, Node.stop, node, FileWords.file, Node.tree, Tree.stop]
  exact Pos.le_trans (Tree.advance_le_stopFields rfl rfl) Tree.stopFields_le_cons

/-- A file ends behind all of its tokens but semicolons. -/
theorem stop_lexeme {l : Lexeme} (hl : l ∈ Word.lexemes r.words) (hsemi : l.token ≠ .semicolon) :
    l.stop ≤ r.node.stop := by
  have horder := r.pairwise_lexemes
  simp only [FileWords.words, Word.lexemes_append, Word.lexemes_lexeme] at hl horder
  obtain ⟨-, horder, -⟩ := List.pairwise_append.mp horder
  obtain ⟨-, horder⟩ := List.pairwise_cons.mp horder
  obtain ⟨hnames, horder, -⟩ := List.pairwise_append.mp horder
  obtain ⟨-, hdecls, -⟩ := List.pairwise_append.mp horder
  simp only [List.mem_append, List.mem_cons] at hl
  rcases hl with hl | rfl | hl | hl | hl
  · rcases r.doc_derives.doc_cases with ⟨heq, -⟩ | ⟨g, heq, -⟩
    · rw [heq] at hl
      cases hl
    · rw [heq] at hl
      cases hl
  · exact r.stop_package
  · exact Pos.le_trans (r.name_derives.stop_lexeme rfl rfl hnames hl hsemi)
      (r.stop_field (by simp [node, FileWords.file]))
  · rcases r.end_isEnd with hnil | ⟨m, hm, heq⟩
    · rw [hnil] at hl
      cases hl
    · rw [heq, Word.lexemes_lexeme, Word.lexemes_nil, List.mem_singleton] at hl
      exact absurd (hl ▸ hm) hsemi
  · exact Pos.le_trans (r.decls_derive.stop_lines rfl rfl hdecls hl hsemi)
      (r.stop_field (by simp [node, FileWords.file]))

/-- A file ends behind all comments. -/
theorem stop_comment {c : Comment} (hc : c ∈ r.comments) : c.stop ≤ r.node.stop := by
  obtain ⟨ds, line, hmem, hg⟩ := r.groups_comments.exists_group hc
  have hgroup := Tree.stop_le_stopAll (List.mem_map_of_mem (f := CommentGroup.tree) hg)
  rw [← Tree.stop_list] at hgroup
  exact Pos.le_trans (CommentGroup.stop_le_stop_tree hmem)
    (Pos.le_trans hgroup (r.stop_field (by simp [node, FileWords.file])))

/-! ### Where documented phrases begin -/

theorem isValid_lexeme {l : Lexeme} (hl : .lexeme l ∈ r.words) : l.pos.isValid = true := by
  have hle := r.scans.le_pos (List.mem_append_left _ (Word.mem_lexemes.mpr hl))
  rw [Pos.le_def] at hle
  simp only [Pos.atOffset] at hle
  simp only [Pos.isValid, bne_iff_ne]
  omega

/-- A phrase with a comment above it begins there or at its first token.  The comment stands behind
the token before it. -/
theorem start_documented {ws a b : List Word} {doc : Tree} {l : Lexeme} (ts : List Tree)
    (hdoc : Derives d .doc ws doc) (hw : r.words = a ++ (ws ++ .lexeme l :: b)) :
    Tree.startAll (doc :: .pos l.pos :: ts) = l.pos ∨
      ∃ c ∈ r.comments, Tree.startAll (doc :: .pos l.pos :: ts) = c.pos ∧ c.stop ≤ l.pos ∧
        ∀ m, (Word.lexemes a).getLast? = some m → m.pos < c.pos := by
  rcases hdoc.doc_cases with ⟨-, rfl⟩ | ⟨g, rfl, rfl⟩
  · have hpos : (Tree.pos l.pos).start = l.pos := by rw [Tree.start]
    have hvalid := r.isValid_lexeme (l := l) (by simp [hw])
    rw [Tree.startAll_of_not_isValid rfl, Tree.startAll_of_isValid (by rw [hpos]; exact hvalid),
      hpos]
    exact .inl rfl
  · have hg : g ∈ r.groups := r.run.mem_groups (by simp [hw])
    obtain ⟨ds, line, hne, hsub, rfl⟩ := r.groups_comments.exists_comments hg
    have hrun := r.run
    rw [hw] at hrun
    have hstop : (CommentGroup.ofComments ds line).stop ≤ l.pos := hrun.stop_le_pos
    cases ds with
    | nil => exact absurd rfl hne
    | cons c ds =>
      have hc : c ∈ r.comments := hsub.subset List.mem_cons_self
      have hvalid : c.pos.isValid = true := (Source.isCut_of_slice? (r.slice?_comment hc)).1.isValid
      have hstart : (CommentGroup.ofComments (c :: ds) line).tree.start = c.pos :=
        CommentGroup.start_tree hvalid
      have horder := r.scans.pairwise_comments.sublist hsub
      refine .inr ⟨c, hc, ?_, Pos.le_trans (CommentGroup.stop_head_le horder) hstop, fun m hm => ?_⟩
      · rw [Tree.startAll_of_isValid (by rw [hstart]; exact hvalid), hstart]
      · have hlt := hrun.pos_lt_start hm
        rwa [CommentGroup.start_ofComments hvalid] at hlt

end FileReading

end Graft
