import Graft.Proofs.Layout.Seams

/-! # Comments between unchanged tokens survive

A comment is no part of the code, so it survives printing in the text that is taken over from the
source.  Between two tokens that the file records one behind the other, and before the first and
behind the last of them, this is all of the text, if nothing in it changed and no other tokens but
commas and semicolons stand there (`printFile_seam`).

A token that is not recorded, such as the `=` of a variable declaration, is printed anew wherever
its parent is, and the comments around it are lost, changed or not (`printFile_loses_comment`).
-/

namespace Graft

/-- The stretches of a source between two tokens that a file records one behind the other, before
the first and behind the last. -/
inductive Node.Seam (file : Node) (src : Source) (scan : Scan) : Span → Prop where
  | front {l : Lexeme} (hl : l ∈ scan.lexemes) (hloose : l.token.isLoose = false)
      (h : file.tree.tokenPlaces.head? = some l.pos) : file.Seam src scan ⟨.atOffset 0, l.pos⟩
  | between {l m : Lexeme} (hl : l ∈ scan.lexemes) (hloose : l.token.isLoose = false)
      (hm : m ∈ scan.lexemes)
      (hloose' : m.token.isLoose = false) (h : [l.pos, m.pos] <:+: file.tree.tokenPlaces) :
    file.Seam src scan ⟨l.stop, m.pos⟩
  | back {l : Lexeme} (hl : l ∈ scan.lexemes) (hloose : l.token.isLoose = false)
      (h : file.tree.tokenPlaces.getLast? = some l.pos) :
    file.Seam src scan ⟨l.stop, .atOffset (byteLength src.text)⟩

/-- The page on which a file is printed that is to keep its layout. -/
def Page.keeping (cs : List Char) (changed : SpanSet) (indent : String) : Page :=
  ⟨some (.ofText cs), changed, indent⟩

theorem isInfix_printFile (file : Node) (src : Source) (changed : SpanSet) (indent : String) :
    (Pen.node ⟨some src, changed, indent⟩ file.tree.height file (.start (.atOffset 0))).out.toList
      <:+:
      (printFile file src changed ⟨indent, true⟩).toList := by
  unfold printFile
  simp only [if_true]
  split
  · rw [String.toList_append]
    exact (List.prefix_append _ _).isInfix
  · rw [String.toList_append]
    exact (List.prefix_append _ _).isInfix

namespace FileReading

variable {cs : List Char} (r : FileReading .code cs) {page : Page} {out : String} {e p q : Pos}
  {ps qs : List Pos}
  {l m : Lexeme}

/-! ### The words of a file and its layout -/

/-- The layout of a file goes through all its words. -/
theorem spells : Spells page [] .nothing (some 0) r.words (Layout.items page r.node) := by
  obtain ⟨xs, heq, hxs⟩ := r.decls_derive.lines_spelling rfl page
  cases heq
  have hdecls (read : List Word) : Spells page read .nothing (some 0) (r.declWords ++ [])
      (Item.preceded .blankLine r.decls ++ []) :=
    .preceded hxs rfl fun _ s' hs' => by
      obtain rfl : s' = .nothing := hs'.elim id id
      exact .nil
  rw [List.append_nil, List.append_nil] at hdecls
  rw [node, FileWords.file, Layout.items, FileWords.words]
  simp only [List.append_assoc]
  refine Layout.spells_doc r.doc_derives (fun w hw => r.placed (by simp [FileWords.words, hw]))
    (.head (by rw [r.package_token]; rfl)) rfl fun read s since hs => ?_
  refine .mark r.package_token rfl hs (.gap (.phrase r.name_derives rfl rfl ?_))
  rcases r.end_isEnd with hnil | ⟨l, hl, hend⟩
  · rw [hnil]
    exact hdecls _
  · rw [hend]
    exact .semicolon hl (hdecls _)

/-- The comments of a file are no tokens of it. -/
theorem tokenPlaces_node : r.node.tree.tokenPlaces = Tree.tokenPlacesAll r.code := by
  have hcomments : (Tree.list (r.groups.map (·.tree))).tokenPlaces = [] := by
    rw [Tree.tokenPlaces_list, List.eq_nil_iff_forall_not_mem]
    intro p hp
    obtain ⟨t, ht, hp⟩ := Tree.mem_tokenPlacesAll.mp hp
    obtain ⟨g, hg, rfl⟩ := List.mem_map.mp ht
    obtain ⟨ds, line, -, -, rfl⟩ := r.groups_comments.exists_comments hg
    cases hp
  have hcode : r.node.tree.tokenPlaces = Tree.tokenPlacesAll
      (r.code ++ [.list (r.groups.map (·.tree))]) := rfl
  rw [hcode, Tree.tokenPlacesAll_append, Tree.tokenPlacesAll, hcomments]
  exact List.append_nil _

/-- The places that a file records are those of its tokens. -/
theorem hold : Word.Hold r.words r.node.tree.tokenPlaces := by
  have hplaced {ws : List Word} (h : ∀ w ∈ ws, w ∈ r.words) : ∀ w ∈ ws, w.Placed :=
    fun w hw => r.placed (h w hw)
  have hname := r.name_derives.hold (hplaced (by simp +contextual [FileWords.words])) rfl
  have hdecls := r.decls_derive.hold (hplaced (by simp +contextual [FileWords.words])) rfl
  have hdoc : r.doc.tokenPlaces = [] := by
    rcases r.doc_derives.doc_cases with ⟨-, h⟩ | ⟨g, h, hg⟩
    · rw [h]
      rfl
    · rw [hg]
      exact CommentGroup.tokenPlaces_tree (r.placed (by simp [FileWords.words, h]))
  rw [r.tokenPlaces_node, code, Tree.tokenPlacesAll, hdoc, FileWords.words]
  refine .append (v := r.docWords) .nil (.append (v := [.lexeme r.package]) ?_ (.append hname ?_))
  · exact .pos (by rw [r.package_token]; rfl)
  · rw [Tree.tokenPlacesAll, Tree.tokenPlacesAll, List.append_nil]
    exact hdecls.mono (List.subset_append_right _ _)

/-- The file begins with the keyword of its package clause, or the comment above. -/
theorem start_le_token (hl : .lexeme l ∈ r.words) : r.node.start ≤ l.pos := by
  refine Pos.le_trans r.start_le_package ?_
  have hwords : r.words = r.docWords ++ .lexeme r.package ::
      (r.nameWords ++ (r.endWords ++ r.declWords)) := rfl
  rw [hwords] at hl
  rcases List.mem_append.mp hl with hl | hl
  · rcases r.doc_derives.doc_cases with ⟨h, -⟩ | ⟨g, h, -⟩ <;> rw [h] at hl
    · cases hl
    · cases List.mem_singleton.mp hl
  · rcases List.mem_cons.mp hl with heq | hl
    · cases heq
      exact Pos.le_refl _
    · have hwords' : r.words = (r.docWords ++ [.lexeme r.package]) ++
          (r.nameWords ++ (r.endWords ++ r.declWords)) := by simp [hwords]
      exact (r.before_of_split hwords' (v := .lexeme r.package) (by simp) hl).1

/-! ### Printing a file -/

variable {r}

/-- The end of what is covered is that of a token. -/
theorem Covered.exists_stop (h : r.Covered page out e ps q) (hne : ps ≠ []) :
    ∃ l, .lexeme l ∈ r.words ∧ l.token.isLoose = false ∧ q = l.stop := by
  induction h with
  | nil => exact absurd rfl hne
  | @cons _ _ l ps hl hloose _ h ih =>
    by_cases hps : ps = []
    · subst hps
      cases h
      exact ⟨l, hl, hloose, rfl⟩
    · exact ih hps

/-- Behind the last token the source is taken over to the end. -/
theorem Poised.kept_end {changed : SpanSet} {indent : String} {pen : Pen}
    (h : r.Poised (.keeping cs changed indent) r.words [] pen .nothing (some 0) e)
    (hprint : ∀ gap, Pen.sourceGap? { pen with pending := .newline } (.keeping cs changed indent)
      (.atOffset (byteLength cs)) = some gap → out = pen.out ++ String.ofList gap) :
    r.Kept (.keeping cs changed indent) out e (.atOffset (byteLength cs)) := by
  intro hidle
  have hparted : Word.Parted r.words [] (.atOffset (byteLength cs)) := by
    refine ⟨fun w hw hsemi => ?_, List.forall_mem_nil _⟩
    obtain ⟨a, b, hab, hstop⟩ := (r.isBreak_word hw hsemi).2.isCut
    rw [hstop, hab, byteLength_append, Pos.le_def]
    simp only [Pos.atOffset]
    omega
  have hready := h.ready _ hparted hidle
  obtain ⟨taken, htaken, hsubstance⟩ := hready.isBreak.exists_gap r.isBreak_end hready.last_le
    fun l hl hle hlt => hidle.loose l hl (Pos.le_trans hready.le_last hle) hlt
  have hnone : (Word.lexemes r.words).countP
      (fun l => l.isCommaFrom pen.last && decide (l.pos < .atOffset (byteLength cs))) = 0 := by
    have hle := List.countP_mono_left (l := Word.lexemes r.words)
      (p := fun l => l.isCommaFrom pen.last &&
      decide (l.pos < .atOffset (byteLength cs))) (q := Lexeme.isCommaFrom pen.last)
      fun l _ hcomma => ((Bool.and_eq_true _ _).mp hcomma).1
    rw [← Option.some.inj hready.since_eq] at hle
    exact Nat.le_zero.mp hle
  rw [hnone] at hsubstance
  obtain ⟨shown, hshown, x, hx⟩ := hready.shown
  have hgap := hprint taken (Pen.sourceGap?_eq_some rfl htaken
    (SpanSet.not_intersects_mono hidle.unchanged hready.le_last hready.last_le
      (Pos.le_refl _) h.isValid)
    (Separator.fits_of_substance (by rintro ⟨⟩) hsubstance))
  refine ⟨shown ++ taken, Source.slice?_append hshown htaken, x, [], ?_⟩
  rw [hgap, String.toList_append, String.toList_ofList, ← hx]
  simp

/-! ### A file that is copied -/

variable (r) {changed : SpanSet} {indent : String} {text : List Char}

/-- All tokens stand within the file. -/
theorem token_inside (hm : .lexeme m ∈ r.words) (hloose : m.token.isLoose = false) :
    r.node.start ≤ m.pos ∧ m.stop ≤ r.node.stop ∧ m.pos ≤ m.stop ∧ IsCut cs m.pos ∧
      IsCut cs m.stop := by
  have hne := Token.ne_semicolon_of_not_isLoose hloose
  have hbreak := r.isBreak_word hm (by simpa [Word.isSemicolon] using hne)
  exact ⟨r.start_le_token hm, r.stop_lexeme (Word.mem_lexemes.mpr hm) hne, Pos.le_advance _ _,
    hbreak.1.isCut, hbreak.2.isCut⟩

variable {r}

theorem isInfix_of_copy (hcopy : Page.copy? (.keeping cs changed indent) r.node = some text) :
    ((Pen.start (.atOffset 0)).emit (.keeping cs changed indent) r.node.start r.node.stop
      (String.ofList text)).out.toList <:+: (printFile r.node (.ofText cs) changed
      ⟨indent, true⟩).toList := by
  rw [← Pen.node_of_copy (Nat.le_refl _) hcopy]
  exact isInfix_printFile r.node (.ofText cs) changed indent

/-- What stands before the file is taken over. -/
theorem kept_copied_front (hcopy : Page.copy? (.keeping cs changed indent) r.node = some text)
    (hm : .lexeme m ∈ r.words) (hloose : m.token.isLoose = false) :
    r.Kept (.keeping cs changed indent) (printFile r.node (.ofText cs) changed ⟨indent, true⟩)
    (.atOffset 0)
      m.pos := by
  intro hidle
  have hsrc : (Page.keeping cs changed indent).source = some (.ofText cs) := rfl
  have hslice := Page.slice?_of_copy? hsrc hcopy
  obtain ⟨front, hfront, hfront_nil⟩ := r.exists_gap_before
  obtain ⟨hle, hstop, hle', hcut, -⟩ := r.token_inside hm hloose
  have hgap : (Pen.start (.atOffset 0)).sourceGap? (.keeping cs changed indent)
      r.node.start = some front :=
    Pen.sourceGap?_eq_some rfl hfront
      (SpanSet.not_intersects_mono hidle.unchanged (Pos.le_refl _)
        (Source.le_of_slice? hfront) hle rfl)
      (Separator.fits_of_substance (by rintro ⟨⟩) hfront_nil)
  have hin := isInfix_of_copy hcopy
  rw [Pen.emit_out_of_gap hgap, String.toList_ofList] at hin
  exact kept_of_slice (Source.slice?_append hfront hslice) hin (Source.isCut_of_slice? hfront).1
    hcut (Pos.le_refl _)
    (Pos.le_trans hle' hstop) hidle

theorem kept_copied_between (hcopy : Page.copy? (.keeping cs changed indent) r.node = some text)
    (hl : .lexeme l ∈ r.words) (hm : .lexeme m ∈ r.words) (hloose : l.token.isLoose = false)
    (hloose' : m.token.isLoose = false) :
    r.Kept (.keeping cs changed indent) (printFile r.node (.ofText cs) changed ⟨indent, true⟩)
      l.stop m.pos := by
  obtain ⟨hle, -, hle', -, hcut⟩ := r.token_inside hl hloose
  obtain ⟨-, hstop, hle'', hcut', -⟩ := r.token_inside hm hloose'
  have htext : text <:+: (printFile r.node (.ofText cs) changed ⟨indent, true⟩).toList := by
    obtain ⟨gap, hout⟩ := Pen.emit_out (.start (.atOffset 0)) (.keeping cs changed indent)
      r.node.start r.node.stop
      (String.ofList text)
    rw [String.toList_ofList] at hout
    have hin := isInfix_of_copy hcopy
    rw [hout] at hin
    exact (List.suffix_append _ _).isInfix.trans hin
  have hsrc : (Page.keeping cs changed indent).source = some (.ofText cs) := rfl
  exact kept_of_slice (Page.slice?_of_copy? hsrc hcopy) htext hcut hcut' (Pos.le_trans hle hle')
    (Pos.le_trans hle'' hstop)

/-- What stands behind the file is taken over. -/
theorem kept_copied_back (hcopy : Page.copy? (.keeping cs changed indent) r.node = some text)
    (hl : .lexeme l ∈ r.words) (hloose : l.token.isLoose = false) :
    r.Kept (.keeping cs changed indent)
    (printFile r.node (.ofText cs) changed ⟨indent, true⟩) l.stop
      (.atOffset (byteLength cs)) := by
  intro hidle
  have hsrc : (Page.keeping cs changed indent).source = some (.ofText cs) := rfl
  have hslice := Page.slice?_of_copy? hsrc hcopy
  obtain ⟨back, hback, hback_nil⟩ := r.exists_gap_behind
  obtain ⟨hle, hstop, hle', -, hcut⟩ := r.token_inside hl hloose
  obtain ⟨pen, hpen⟩ : ∃ pen, (Pen.start (.atOffset 0)).emit (.keeping cs changed indent)
    r.node.start r.node.stop
      (String.ofList text) = pen := ⟨_, rfl⟩
  have hlast : pen.last = r.node.stop := by
    rw [← hpen]
    exact if_pos (Source.isCut_of_slice? hslice).1.isValid
  have hgap : Pen.sourceGap? { pen with pending := .newline } (.keeping cs changed indent)
      (.atOffset (byteLength cs)) = some back := by
    refine Pen.sourceGap?_eq_some hsrc (by rw [hlast]; exact hback) ?_
      (Separator.fits_of_substance (by rintro ⟨⟩) hback_nil)
    rw [hlast]
    exact SpanSet.not_intersects_mono hidle.unchanged hstop (Source.le_of_slice? hback)
      (Pos.le_refl _) hcut.isValid
  have hout := printFile_eq ((Pen.node_of_copy (Nat.le_refl _) hcopy).trans hpen) hgap
  obtain ⟨gap, hemit⟩ := Pen.emit_out (.start (.atOffset 0)) (.keeping cs changed indent)
    r.node.start r.node.stop
    (String.ofList text)
  rw [hpen, String.toList_ofList] at hemit
  refine kept_of_slice (Source.slice?_append hslice hback) ?_ hcut (Source.isCut_of_slice? hback).2
    (Pos.le_trans hle hle') (Pos.le_refl _) hidle
  rw [hout, String.toList_append, String.toList_ofList, hemit]
  exact ⟨gap, [], by simp [Pen.start]⟩

theorem covered_copy (hcopy : Page.copy? (.keeping cs changed indent) r.node = some text) :
    ∃ e, r.Covered (.keeping cs changed indent)
        (printFile r.node (.ofText cs) changed ⟨indent, true⟩)
        (.atOffset 0) r.node.tree.tokenPlaces e ∧
      r.Kept (.keeping cs changed indent) (printFile r.node (.ofText cs) changed ⟨indent, true⟩) e
        (.atOffset (byteLength cs)) := by
  obtain ⟨e, hcovered⟩ := Covered.of_hold (fun w hw => hw) r.hold
    (fun m hm hloose => kept_copied_front hcopy hm hloose)
    fun l m hl hm hloose hloose' => kept_copied_between hcopy hl hm hloose hloose'
  have hne : r.node.tree.tokenPlaces ≠ [] := by
    rw [r.tokenPlaces_node, code]
    simp [Tree.tokenPlacesAll, Tree.tokenPlaces_pos (r.isValid_lexeme r.package_mem)]
  obtain ⟨l, hl, hloose, rfl⟩ := hcovered.exists_stop hne
  exact ⟨l.stop, hcovered, kept_copied_back hcopy hl hloose⟩

variable (r)

/-- **A printed file has all stretches between its tokens** that did not change, before the first
and behind the last as well. -/
theorem covered (changed : SpanSet) (indent : String) :
    ∃ e, r.Covered (.keeping cs changed indent)
        (printFile r.node (.ofText cs) changed ⟨indent, true⟩)
        (.atOffset 0) r.node.tree.tokenPlaces e ∧
      r.Kept (.keeping cs changed indent) (printFile r.node (.ofText cs) changed ⟨indent, true⟩) e
        (.atOffset (byteLength cs)) := by
  cases hcopy : Page.copy? (.keeping cs changed indent) r.node with
  | some text => exact covered_copy hcopy
  | none =>
    have hsrc : (Page.keeping cs changed indent).source = some (.ofText cs) := rfl
    have hlays := r.lays hsrc
    obtain ⟨h, hheight⟩ : ∃ h, r.node.tree.height = h + 1 := ⟨_, by rw [Node.tree, Tree.height]⟩
    have hnodes : r.NodesFollow (.keeping cs changed indent)
        (Pen.node (.keeping cs changed indent) h)
        (Layout.items (.keeping cs changed indent) r.node) := by
      have hlow (m : Node) (hm : m ∈ Tree.nodesAll r.code) : m.tree.height ≤ h := by
        have hcode : (Tree.nodesAll r.code).Sublist (Tree.nodesAll r.node.fields) :=
          Tree.nodesAll_sublist (List.sublist_append_left r.code _)
        have hle := Tree.height_nodesAll _ m (hcode.subset hm)
        rw [Node.tree, Tree.height] at hheight
        omega
      exact .of_lays hlays hlow (r.shaped hsrc)
        fun m ws hle hshaped hplain hspelling => r.follows_node rfl hle hshaped hplain hspelling
    have hstart : r.Poised (.keeping cs changed indent) [] (r.words ++ [])
        (.start (.atOffset 0)) .nothing
        (some 0) (.atOffset 0) := by
      refine ⟨(List.append_nil _).symm, .inl rfl, fun q _ hidle => ?_⟩
      exact ⟨rfl, rfl, r.isBreak_zero, Pos.le_refl _, hidle.le, [],
        Source.slice?_eq_some_iff.mpr ⟨[], cs, rfl, rfl, rfl⟩, List.nil_suffix⟩
    obtain ⟨e, hcovered, hpoised⟩ := hnodes.spells rfl r.spells hstart
    have hnode : Pen.node (.keeping cs changed indent) (h + 1) r.node (.start (.atOffset 0)) = _ :=
      Pen.node_of_not_copied hcopy
    rw [← hheight] at hnode
    rw [hlays.tokenPlaces, ← r.tokenPlaces_node, ← hnode] at hcovered
    rw [← hnode] at hpoised
    exact ⟨e, hcovered.mono (isInfix_printFile r.node (.ofText cs) changed indent),
      hpoised.kept_end fun gap hgap => printFile_eq rfl hgap⟩

/-! ### Seams -/

variable {r} {a b : List Pos}

/-- A token that is recorded is a word of the file, so it is not the end of the text. -/
theorem lexeme_mem_words (hl : l ∈ Word.lexemes r.words ++ [r.last])
    (hloose : l.token.isLoose = false) (hplace : l.pos ∈ r.node.tree.tokenPlaces) :
    .lexeme l ∈ r.words := by
  rcases List.mem_append.mp hl with hl | hl
  · exact Word.mem_lexemes.mp hl
  · obtain rfl := List.mem_singleton.mp hl
    obtain ⟨m, hm, hloose', hpos⟩ := r.hold _ hplace
    have hne := Token.ne_semicolon_of_not_isLoose hloose'
    have hbefore := (List.pairwise_append.mp (r.scans.pairwise r.splits.allSpelled)).2.2 m
      (Word.mem_lexemes.mpr hm) r.last hl
    have hle : m.stop ≤ r.last.pos := hbefore.2 hne
    rw [← hpos] at hle
    exact absurd (r.pos_lt_stop hm hne) (Nat.not_lt_of_le hle)

theorem Covered.kept_front (h : r.Covered page out e (l.pos :: ps) q) :
    r.Kept page out e l.pos := by
  generalize hplaces : l.pos :: ps = places at h
  cases h with
  | nil => cases hplaces
  | cons _ _ hkept =>
    rw [(List.cons.inj hplaces).1]
    exact hkept

theorem Covered.kept_between (h : r.Covered page out e (a ++ l.pos :: m.pos :: b) q)
    (hl : .lexeme l ∈ r.words) (hloose : l.token.isLoose = false) :
    r.Kept page out l.stop m.pos := by
  generalize hplaces : a ++ l.pos :: m.pos :: b = places at h
  induction h generalizing a with
  | nil => simp at hplaces
  | @cons _ _ k ps hk hloose' _ h ih =>
    cases a with
    | cons p a => exact ih (List.cons.inj hplaces).2
    | nil =>
      obtain ⟨hpos, rfl⟩ := List.cons.inj hplaces
      obtain rfl := r.eq_of_pos_eq hl hk (Token.ne_semicolon_of_not_isLoose hloose)
        (Token.ne_semicolon_of_not_isLoose hloose') hpos
      exact h.kept_front

/-- An unchanged stretch between two tokens that are recorded is in the printed file. -/
theorem kept_seam {scan : Scan} {span : Span}
    (hscan : scan.lexemes = Word.lexemes r.words ++ [r.last])
    (h : r.node.Seam (.ofText cs) scan span) (changed : SpanSet) (indent : String) :
    r.Kept (.keeping cs changed indent)
    (printFile r.node (.ofText cs) changed ⟨indent, true⟩) span.start
      span.stop := by
  obtain ⟨e, hcovered, hend⟩ := r.covered changed indent
  have hword {l : Lexeme} (hl : l ∈ scan.lexemes) (hloose : l.token.isLoose = false)
      (hplace : l.pos ∈ r.node.tree.tokenPlaces) : .lexeme l ∈ r.words :=
    lexeme_mem_words (hscan ▸ hl) hloose hplace
  cases h with
  | front hl hloose h =>
    obtain ⟨ps, hps⟩ := List.head?_eq_some_iff.mp h
    rw [hps] at hcovered
    exact hcovered.kept_front
  | between hl hloose _ _ h =>
    obtain ⟨a, b, hab⟩ := h
    have hwords := hword hl hloose (by simp [← hab])
    rw [← hab, List.append_assoc] at hcovered
    exact hcovered.kept_between hwords hloose
  | back hl hloose h =>
    obtain ⟨ps, hps⟩ := List.getLast?_eq_some_iff.mp h
    have hwords := hword hl hloose (by simp [hps])
    rw [hps] at hcovered
    obtain rfl := hcovered.stop_eq hwords hloose
    exact hend

end FileReading

/-- **A comment in an unchanged stretch between tokens is printed.**  The stretch may be that
between two tokens that the file records one behind the other, or that before the first or behind
the last; no other tokens may stand there, commas and semicolons aside. -/
theorem printFile_seam (cs : List Char) (file : Node) (scan : Scan) (span : Span) (c : Comment)
    (changed : SpanSet) (indent : String) (hfile : parseFile .code cs = .ok file)
    (hscan : Scan.ofText .code cs = .ok scan) (hseam : file.Seam (.ofText cs) scan span)
    (hloose : ∀ l ∈ scan.lexemes, span.start ≤ l.pos → l.pos < span.stop → l.token.isLoose = true)
    (hchanged : changed.intersects span = false) (hc : c ∈ scan.comments)
    (hstart : span.start ≤ c.pos) (hstop : c.stop ≤ span.stop) :
    c.text.toList <:+: (printFile file (.ofText cs) changed ⟨indent, true⟩).toList := by
  obtain ⟨r, rfl, hlexemes, hcomments, -⟩ := exists_fileReading_of_scan hscan hfile
  have hle : span.start ≤ span.stop := Pos.le_trans hstart (Pos.le_trans (Pos.le_advance _ _) hstop)
  obtain ⟨gap, hgap, hin⟩ := FileReading.kept_seam hlexemes hseam changed indent
    ⟨hle, fun l hl => hloose l (hlexemes ▸ List.mem_append_left _ hl), hchanged⟩
  exact (Source.isInfix_of_slice? (r.slice?_comment (hcomments ▸ hc)) hgap hstart hstop).trans hin

/-- The comma in the stretch is not recorded, and the call is printed anew, as its last argument
changed. -/
theorem printFile_seam_arguments :
    ∃ file scan c,
      parseFile .code "package p\n\nvar x = f(g /* c */, y)\n".toList = .ok file ∧
      Scan.ofText .code "package p\n\nvar x = f(g /* c */, y)\n".toList = .ok scan ∧
      file.Seam (.ofText "package p\n\nvar x = f(g /* c */, y)\n".toList) scan
      ⟨.atOffset 22, .atOffset 32⟩ ∧
      (∀ l ∈ scan.lexemes, .atOffset 22 ≤ l.pos → l.pos < .atOffset 32 → l.token.isLoose = true) ∧
      SpanSet.intersects ⟨[⟨.atOffset 32, .atOffset 33⟩]⟩ ⟨.atOffset 22, .atOffset 32⟩ = false ∧
      c ∈ scan.comments ∧ .atOffset 22 ≤ c.pos ∧ c.stop ≤ .atOffset 32 ∧
      c.text.toList <:+: (printFile file (.ofText "package p\n\nvar x = f(g /* c */, y)\n".toList)
        ⟨[⟨.atOffset 32, .atOffset 33⟩]⟩ .default).toList := by
  have hrun :
      ((parseFile .code "package p\n\nvar x = f(g /* c */, y)\n".toList).toOption.any fun file =>
        decide ([.atOffset 21, .atOffset 32] <:+: file.tree.tokenPlaces)) = true := by
    decide +kernel
  have hrun' :
      ((Scan.ofText .code "package p\n\nvar x = f(g /* c */, y)\n".toList).toOption.any fun scan =>
        decide ((⟨.ident, .atOffset 21, "g"⟩ ∈ scan.lexemes ∧
          ⟨.ident, .atOffset 32, "y"⟩ ∈ scan.lexemes) ∧ (∀ l ∈ scan.lexemes, .atOffset 22 ≤ l.pos →
          l.pos < .atOffset 32 → l.token.isLoose = true) ∧
          ⟨.atOffset 23, "/* c */", false⟩ ∈ scan.comments)) = true := by
    decide +kernel
  obtain ⟨file, hfile, hplaces⟩ := exists_of_any_toOption hrun
  obtain ⟨scan, hscan, h⟩ := exists_of_any_toOption hrun'
  obtain ⟨⟨hg, hy⟩, hloose, hc⟩ := of_decide_eq_true h
  have hseam : file.Seam (.ofText "package p\n\nvar x = f(g /* c */, y)\n".toList) scan
      ⟨.atOffset 22, .atOffset 32⟩ := .between hg rfl hy rfl (of_decide_eq_true hplaces)
  have hstart : Pos.atOffset 22 ≤ Comment.pos ⟨.atOffset 23, "/* c */", false⟩ := by decide
  have hstop : Comment.stop ⟨.atOffset 23, "/* c */", false⟩ ≤ .atOffset 32 := by decide +kernel
  have hchanged : SpanSet.intersects ⟨[⟨.atOffset 32, .atOffset 33⟩]⟩
      ⟨.atOffset 22, .atOffset 32⟩ = false := by
    decide
  exact ⟨file, scan, _, hfile, hscan, hseam, hloose, hchanged, hc, hstart, hstop,
    printFile_seam _ file scan _ _ _ _ hfile hscan hseam hloose hchanged hc hstart hstop⟩

/-- Around a token that is not recorded, an unchanged comment is lost. -/
theorem printFile_loses_comment :
    ∃ file scan c,
      parseFile .code "package p\n\nvar x /* c */ = f(y)\n".toList = .ok file ∧
      Scan.ofText .code "package p\n\nvar x /* c */ = f(y)\n".toList = .ok scan ∧
      c ∈ scan.comments ∧
      SpanSet.intersects ⟨[⟨.atOffset 29, .atOffset 30⟩]⟩ ⟨c.pos, c.stop⟩ = false ∧
      ¬ c.text.toList <:+: (printFile file (.ofText "package p\n\nvar x /* c */ = f(y)\n".toList)
        ⟨[⟨.atOffset 29, .atOffset 30⟩]⟩ .default).toList := by
  have hrun :
      ((parseFile .code "package p\n\nvar x /* c */ = f(y)\n".toList).toOption.any fun file =>
        printFile file (.ofText "package p\n\nvar x /* c */ = f(y)\n".toList)
          ⟨[⟨.atOffset 29, .atOffset 30⟩]⟩ .default == "package p\n\nvar x = f(y)\n") = true := by
    decide +kernel
  have hrun' :
      ((Scan.ofText .code "package p\n\nvar x /* c */ = f(y)\n".toList).toOption.any fun scan =>
        decide (⟨.atOffset 17, "/* c */", false⟩ ∈ scan.comments)) = true := by
    decide +kernel
  obtain ⟨file, hfile, hout⟩ := exists_of_any_toOption hrun
  obtain ⟨scan, hscan, hc⟩ := exists_of_any_toOption hrun'
  refine ⟨file, scan, ⟨.atOffset 17, "/* c */", false⟩, hfile, hscan, of_decide_eq_true hc, by
    decide +kernel, ?_⟩
  rw [eq_of_beq hout]
  decide +kernel

end Graft
