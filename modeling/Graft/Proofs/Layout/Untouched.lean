import Graft.Proofs.Layout.FileReading
import Graft.Proofs.Layout.Gaps

/-! # Untouched files are reproduced

A file that was read and of which nothing changed is copied as a whole.  What stands before it and
behind it in the source has no substance, so the printer takes it over as well, and the text comes
back as it was (`printFile_untouched`).
-/

namespace Graft

/-- The text behind an item that was taken from the source is taken over if it can stand for the
separator and nothing there changed. -/
theorem Pen.sourceGap?_eq_some {pen : Pen} {page : Page} {src : Source} {next : Pos}
    {gap : List Char} (hsrc : page.source = some src)
    (hslice : src.slice? ⟨pen.last, next⟩ = some gap)
    (hchanged : page.changed.intersects ⟨pen.last, next⟩ = false)
    (hfits : pen.pending.fits gap = true) : pen.sourceGap? page next = some gap := by
  obtain ⟨a, b, -, hlast, hnext⟩ := Source.slice?_eq_some_iff.mp hslice
  have hle : pen.last ≤ next := by
    rw [hlast, hnext, Pos.le_def]
    simp only [Pos.atOffset]
    omega
  have hvalid : pen.last.isValid = true := by
    rw [hlast]
    rfl
  have hnext : next.isValid = true := by
    rw [hnext]
    rfl
  simp [sourceGap?, resumption?, guard, hsrc, hnext, hvalid, hle, hchanged, hslice, hfits]

/-- A node that agrees with the source, and in which nothing changed, is copied. -/
theorem Page.copy?_of_agrees {page : Page} {src : Source} {n : Node} (hsrc : page.source = some src)
    (hstart : IsCut src.text n.start) (hlt : n.start < n.stop) (hagrees : page.agrees n = true)
    (hchanged : page.changed.intersects n.span = false) :
    ∃ text, page.copy? n = some text ∧ src.slice? ⟨n.start, n.stop⟩ = some text := by
  have hstop : IsCut src.text n.stop := Page.isCut_stop hsrc n hagrees (Pos.isValid_of_lt hlt)
  have hle : n.start ≤ n.stop := Nat.le_of_lt hlt
  obtain ⟨text, htext⟩ := Source.exists_slice? hstart hstop hle
  refine ⟨text, ?_, htext⟩
  have hvalid : n.span.isValid = true := by
    simp only [Span.isValid, Bool.and_eq_true, decide_eq_true_eq]
    exact ⟨⟨hstart.isValid, hstop.isValid⟩, hle⟩
  have hempty : n.span.isEmpty = false := by
    simp only [Span.isEmpty, decide_eq_false_iff_not]
    exact Nat.not_le_of_lt hlt
  rw [Page.copy?, hsrc]
  dsimp only
  rw [hvalid, hempty, hchanged, hagrees]
  exact htext

namespace FileReading

variable {d : Dialect} {cs : List Char} (r : FileReading d cs)

/-! ### The ends of a file -/

theorem start_cases : r.node.start = r.package.pos ∨
    ∃ c ∈ r.comments, r.node.start = c.pos ∧ c.stop ≤ r.package.pos := by
  rw [Node.start, node, FileWords.file, Node.tree, Tree.start]
  rcases r.start_documented (a := []) _ r.doc_derives rfl with h | ⟨c, hc, h, hle, -⟩
  · exact .inl h
  · exact .inr ⟨c, hc, h, hle⟩

theorem start_le_package : r.node.start ≤ r.package.pos := by
  rcases r.start_cases with h | ⟨c, -, h, hle⟩
  · rw [h]
    exact Pos.le_refl _
  · rw [h]
    exact Pos.le_trans (Pos.le_advance _ _) hle

theorem package_mem : .lexeme r.package ∈ r.words := by simp [FileWords.words]

theorem package_lt_stop : r.package.pos < r.node.stop := by
  have hvalid := r.isValid_lexeme r.package_mem
  have hstop := r.stop_package
  rw [Lexeme.stop, Lexeme.spelling_of_not_carriesText (by rw [r.package_token]; rfl),
    r.package_token, Pos.advance, if_pos hvalid, Pos.le_def] at hstop
  have hwidth : 0 < (Token.text .kwPackage).utf8ByteSize := by decide
  rw [Pos.lt_def]
  dsimp only at hstop
  omega

theorem start_lt_stop : r.node.start < r.node.stop := by
  have hle := r.start_le_package
  have hlt := r.package_lt_stop
  rw [Pos.lt_def] at *
  rw [Pos.le_def] at hle
  omega

/-- No token stands before a file. -/
theorem exists_pieces_before : ∃ ps qs, r.pieces = ps ++ qs ∧ (∀ p ∈ ps, ∀ t, p.kind ≠ .token t) ∧
    r.node.start = .atOffset (byteLength (Piece.texts ps)) := by
  have hlexemes : Word.lexemes r.words ++ [r.last] =
      r.package :: (Word.lexemes (r.nameWords ++ (r.endWords ++ r.declWords)) ++ [r.last]) := by
    have hdoc : Word.lexemes r.docWords = [] := by
      rcases r.doc_derives.doc_cases with ⟨h, -⟩ | ⟨g, h, -⟩ <;> rw [h] <;> rfl
    rw [FileWords.words, Word.lexemes_append, hdoc, Word.lexemes_lexeme]
    rfl
  have hscans := r.scans
  rw [hlexemes] at hscans
  obtain ⟨ps, p, qs, hpieces, hps, hpos⟩ := hscans.head (by rw [r.package_token]; decide)
  rw [Nat.zero_add] at hpos
  rcases r.start_cases with h | ⟨c, hc, h, hle⟩
  · exact ⟨ps, p :: qs, hpieces, hps, h.trans hpos⟩
  · obtain ⟨ps', qs', hpieces', hpos'⟩ := r.scans.exists_piece_of_comment hc
    rw [Nat.zero_add] at hpos'
    refine ⟨ps', qs', hpieces', ?_, h.trans hpos'⟩
    -- the comment stands before the first token, so fewer pieces stand before it
    rcases List.append_eq_append_iff.mp (hpieces'.symm.trans hpieces) with ⟨m, rfl,
      -⟩ | ⟨m, rfl, hm⟩
    · exact fun q hq => hps q (List.mem_append_left _ hq)
    · have hle := Pos.le_trans (Pos.le_advance _ _) hle
      rw [hpos', hpos, Pos.le_def, Piece.texts_append, byteLength_append] at hle
      cases m with
      | nil => simpa using hps
      | cons q m =>
        have hq : q ∈ r.pieces := by simp [hpieces']
        have hwidth := byteLength_pos (r.splits.text_ne_nil hq)
        simp only [Pos.atOffset, Piece.texts_cons, byteLength_append] at hle
        omega

/-- What stands before a file has no substance. -/
theorem exists_gap_before :
    ∃ gap, (Source.ofText cs).slice? ⟨.atOffset 0, r.node.start⟩ = some gap ∧
    substance .nothing gap = [] := by
  obtain ⟨ps, qs, hpieces, hps, hstart⟩ := r.exists_pieces_before
  have hsplits := r.splits
  rw [hpieces] at hsplits
  refine ⟨Piece.texts ps, ?_, hsplits.substance_texts hps⟩
  rw [hstart]
  refine Source.slice?_eq_some_iff.mpr ⟨[], Piece.texts qs, ?_, rfl, by simp⟩
  rw [Source.text_ofText, ← hsplits.texts_eq, Piece.texts_append]
  rfl

theorem isCut_stop : IsCut cs r.node.stop := by
  let page : Page := ⟨some (Source.ofText cs), .empty, ""⟩
  have hsrc : page.source = some (Source.ofText cs) := rfl
  exact Page.isCut_stop hsrc r.node.tree (r.agrees hsrc) (Pos.isValid_of_lt r.start_lt_stop)

/-- What stands behind a file has no substance. -/
theorem exists_gap_behind :
    ∃ gap, (Source.ofText cs).slice? ⟨r.node.stop, .atOffset (byteLength cs)⟩ = some gap ∧
      substance .nothing gap = [] := by
  obtain ⟨a, b, hab, hstop⟩ := r.isCut_stop
  refine ⟨b, Source.slice?_eq_some_iff.mpr ⟨a, [], by simpa using hab, hstop, by simp [hab]⟩, ?_⟩
  apply substance_eq_nil
  refine r.scans.blank_behind r.splits.allSpelled r.splits.allBlank (q := r.node.stop) ?_
    (fun c hc => r.stop_comment hc) (r.splits.texts_eq.trans hab) ?_
  · intro l hl heof hsemi
    rcases List.mem_append.mp hl with hl | hl
    · exact r.stop_lexeme hl hsemi
    · have hlast : r.last.token = .eof := by
        have he := r.run.ended r.ended
        rw [r.stop_rest] at he
        exact he
      rw [List.mem_singleton.mp hl] at heof
      exact absurd hlast heof
  · rw [Nat.zero_add, hstop]
    exact Pos.le_refl _

/-- A file of which nothing changed can be copied. -/
theorem copy?_node {page : Page} (hsrc : page.source = some (Source.ofText cs))
    (hchanged : page.changed.intersects r.node.span = false) :
    ∃ text, page.copy? r.node = some text ∧
      (Source.ofText cs).slice? ⟨r.node.start, r.node.stop⟩ = some text := by
  obtain ⟨gap, hgap, -⟩ := r.exists_gap_before
  exact Page.copy?_of_agrees hsrc (Source.isCut_of_slice? hgap).2 r.start_lt_stop (r.agrees hsrc)
    hchanged

end FileReading

theorem Separator.fits_of_substance {s : Separator} {gap : List Char} (hs : s ≠ .comma)
    (h : substance .nothing gap = []) : s.fits gap = true := by
  cases s <;> simp_all [fits]

/-- What is printed, when the text behind the file is taken over. -/
theorem printFile_eq {file : Node} {src : Source} {changed : SpanSet} {indent : String} {pen : Pen}
    {gap : List Char}
    (hpen : Pen.node ⟨some src, changed, indent⟩ file.tree.height file (.start (.atOffset 0)) = pen)
    (hgap : Pen.sourceGap? { pen with pending := .newline } ⟨some src, changed, indent⟩
      (.atOffset (byteLength src.text)) = some gap) :
    printFile file src changed ⟨indent, true⟩ = pen.out ++ String.ofList gap := by
  subst hpen
  simp only [printFile, if_true, hgap]

/-- **A file that was read and of which nothing changed is printed as it was**, whatever the
indentation. -/
theorem printFile_untouched {d : Dialect} {cs : List Char} {file : Node} (indent : String)
    (h : parseFile d cs = .ok file) :
    printFile file (Source.ofText cs) .empty ⟨indent, true⟩ = String.ofList cs := by
  obtain ⟨r, rfl⟩ := exists_fileReading h
  obtain ⟨front, hfront, hfront_nil⟩ := r.exists_gap_before
  obtain ⟨back, hback, hback_nil⟩ := r.exists_gap_behind
  let page : Page := ⟨some (Source.ofText cs), .empty, indent⟩
  have hsrc : page.source = some (Source.ofText cs) := rfl
  have hnone (s : Span) : page.changed.intersects s = false := by simp [page, SpanSet.intersects,
    SpanSet.empty]
  obtain ⟨text, hcopy, htext⟩ := r.copy?_node hsrc (hnone _)
  -- the three stretches of the text: before the file, the file itself, and behind it
  have hall : cs = front ++ text ++ back := by
    have hslice := Source.slice?_append (Source.slice?_append hfront htext) hback
    exact Option.some.inj ((Source.slice?_all (Source.ofText cs)).symm.trans hslice)
  obtain ⟨height, hheight⟩ : ∃ n, r.node.tree.height = n + 1 := ⟨_, by rw [Node.tree, Tree.height]⟩
  have hgap : (Pen.start (.atOffset 0)).sourceGap? page r.node.start = some front :=
    Pen.sourceGap?_eq_some hsrc hfront (hnone _)
    (Separator.fits_of_substance (by rintro ⟨⟩) hfront_nil)
  have hvalid : r.node.start.isValid = true := (Source.isCut_of_slice? hfront).2.isValid
  have hnode : Pen.node page r.node.tree.height r.node (.start (.atOffset 0)) =
      ⟨String.ofList front ++ String.ofList text, 0, r.node.stop, r.node.stop, .nothing⟩ := by
    rw [hheight, Pen.node, hcopy]
    change (Pen.start (.atOffset 0)).emit page r.node.start r.node.stop _ = _
    simp only [Pen.emit, hgap, hvalid, if_true]
    simp [Pen.start]
  have hend : Pen.sourceGap?
      ⟨String.ofList front ++ String.ofList text, 0, r.node.stop, r.node.stop, .newline⟩ page
      (.atOffset (byteLength cs)) = some back :=
    Pen.sourceGap?_eq_some hsrc hback (hnone _)
      (Separator.fits_of_substance (by rintro ⟨⟩) hback_nil)
  rw [printFile_eq hnode hend, ← String.ofList_append, ← String.ofList_append]
  exact congrArg String.ofList hall.symm

/-- Blanks and comments around the tokens come back, also before the first and behind the last. -/
theorem printFile_untouched_comments :
    ∃ file, parseFile .code " // top\npackage  p ;var a=1 // x".toList = .ok file ∧
      printFile file (Source.ofText " // top\npackage  p ;var a=1 // x".toList) .empty
      ⟨"\t", true⟩ =
        String.ofList " // top\npackage  p ;var a=1 // x".toList := by
  obtain ⟨file, h⟩ := exists_of_isOk
    (show (parseFile .code " // top\npackage  p ;var a=1 // x".toList).isOk = true by
      decide +kernel)
  exact ⟨file, h, printFile_untouched "\t" h⟩

end Graft
