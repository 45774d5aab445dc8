import Graft.Proofs.Layout.Gaps
import Graft.Proofs.Layout.WordOrder
import Mathlib.Data.List.Count

/-! # Between two tokens

The text between two tokens is cut at the places between pieces.  If nothing but commas and
semicolons stands between them, the substance of that text is a comma for each comma
(`FileReading.exists_gap`), and the commas can be counted among the words of the file.
-/

namespace Graft

/-- Whether a token only separates others. -/
def Token.isLoose (t : Token) : Bool := t == .comma || t == .semicolon

theorem Token.ne_semicolon_of_not_isLoose {t : Token} (h : t.isLoose = false) : t ≠ .semicolon := by
  rintro rfl
  cases h

namespace Lexeme

/-- Whether a lexeme is a comma at or behind a position. -/
def isCommaFrom (p : Pos) (l : Lexeme) : Bool := l.token == .comma && decide (p ≤ l.pos)

theorem isCommaFrom_iff {p : Pos} {l : Lexeme} :
    l.isCommaFrom p = true ↔ l.token = .comma ∧ p ≤ l.pos := by simp [isCommaFrom]

end Lexeme

/-! ### The substance of pieces -/

/-- Whether a piece is a comma. -/
def Piece.isComma (p : Piece) : Bool := decide (p.kind = .token .comma)

theorem substance_comma (cs : List Char) :
    substance .nothing (',' :: cs) = ',' :: substance .nothing cs := by
  rw [substance.eq_def]
  split
  case h_1 heq | h_2 heq | h_3 heq => cases heq
  case h_4 heq =>
    cases heq
    rfl
  case h_5 heq _ | h_6 heq _ | h_7 heq _ => cases heq

/-- Commas and semicolons count for the substance of a text as commas. -/
theorem Piece.Splits.substance_loose {cs : List Char} {ps qs : List Piece}
    (h : Splits cs (ps ++ qs)) (hps : ∀ p ∈ ps, ∀ t, p.kind = .token t → t.isLoose = true) :
    substance .nothing (texts ps) = List.replicate (ps.countP isComma) ',' := by
  induction ps generalizing cs with
  | nil => rfl
  | cons p ps ih =>
    generalize hpq : p :: ps ++ qs = rs at h
    cases h with
    | nil => cases hpq
    | @cons c cs kind n rs hr hs =>
      cases hpq
      have htexts : texts (ps ++ qs) = _ := hs.texts_eq
      have hprefix : texts ps <+: _ := ⟨texts qs, by rw [← texts_append, htexts]⟩
      have hshape := IsShaped.of_prefix (recognise_ok hr) hprefix
      have hrest := ih hs fun q hq => hps q (List.mem_cons_of_mem _ hq)
      rw [texts_cons, List.countP_cons]
      by_cases htoken : ∃ t, kind = .token t
      · obtain ⟨t, rfl⟩ := htoken
        have hspelling : IsSpelling t (c :: cs.take n) := hshape
        have hloose := hps _ List.mem_cons_self t rfl
        rw [Token.isLoose, Bool.or_eq_true, beq_iff_eq, beq_iff_eq] at hloose
        rcases hloose with rfl | rfl
        · rw [hspelling.eq_text rfl]
          exact (substance_comma _).trans (congrArg _ hrest)
        · rw [hspelling.semicolon rfl]
          exact (substance_cons List.mem_cons_self).trans hrest
      · have hkind : isComma ⟨kind, c :: cs.take n⟩ = false := by
          rw [isComma, decide_eq_false_iff_not]
          exact fun hcomma => htoken ⟨_, hcomma⟩
        rw [substance_piece hshape fun t ht => htoken ⟨t, ht⟩, hrest, hkind]
        rfl

/-! ### Cutting between pieces -/

/-- The last pieces of a text are those of what is left of it. -/
theorem Piece.Splits.exists_right {cs : List Char} {ps qs : List Piece} (h : Splits cs (ps ++ qs)) :
    ∃ ds, Splits ds qs := by
  induction ps generalizing cs with
  | nil => exact ⟨cs, h⟩
  | cons p ps ih =>
    generalize hpq : p :: ps ++ qs = rs at h
    cases h with
    | nil => cases hpq
    | cons _ hs =>
      cases hpq
      exact ih hs

/-- The lexemes of the first pieces of a text stand before those of the others, and are their tokens
but for semicolons at line ends. -/
theorem Scan.Scans.exists_cut {offset : Nat} {isOpen : Bool} {ps qs : List Piece} {ls : List Lexeme}
    {cs : List Comment} (h : Scans offset isOpen (ps ++ qs) ls cs) (hps : ∀ p ∈ ps, p.text ≠ []) :
    ∃ ls₁ ls₂ isOpen' cs', ls = ls₁ ++ ls₂ ∧
      Scans (offset + byteLength (Piece.texts ps)) isOpen' qs ls₂ cs' ∧
      (∀ l ∈ ls₁, l.pos < .atOffset (offset + byteLength (Piece.texts ps))) ∧
      (∀ p ∈ ps, ∀ t, p.kind = .token t → ∃ l ∈ ls₁, l.token = t) ∧
      ls₁.countP (·.token == .comma) = ps.countP Piece.isComma := by
  induction ps generalizing offset isOpen ls cs with
  | nil => exact ⟨[], ls, isOpen, cs, rfl, h, nofun, nofun, rfl⟩
  | cons p ps ih =>
    obtain ⟨hp, hps⟩ := List.forall_mem_cons.mp hps
    have hwidth := byteLength_pos hp
    have hlt : Pos.atOffset offset < .atOffset (offset + byteLength (Piece.texts (p :: ps))) := by
      rw [Pos.lt_def, Piece.texts_cons, byteLength_append]
      simp only [Pos.atOffset]
      omega
    -- what a line end adds before the rest
    have blank {isOpen' : Bool} {ms ls' : List Lexeme} {cs' : List Comment}
        (hk : ∀ t, p.kind ≠ .token t) (hms : LineEnds offset isOpen ms)
        (hs : Scans (offset + byteLength p.text) isOpen' (ps ++ qs) ls' cs') :
        ∃ ls₁ ls₂ isOpen' cs', ms ++ ls' = ls₁ ++ ls₂ ∧
          Scans (offset + byteLength (Piece.texts (p :: ps))) isOpen' qs ls₂ cs' ∧
          (∀ l ∈ ls₁, l.pos < .atOffset (offset + byteLength (Piece.texts (p :: ps)))) ∧
          (∀ q ∈ p :: ps, ∀ t, q.kind = .token t → ∃ l ∈ ls₁, l.token = t) ∧
          ls₁.countP (·.token == .comma) = (p :: ps).countP Piece.isComma := by
      obtain ⟨ls₁, ls₂, isOpen'', cs'', rfl, hscans, hpos, htokens, hcount⟩ := ih hs hps
      rw [Nat.add_assoc, ← byteLength_append, ← Piece.texts_cons] at hscans hpos
      have hcomma : p.isComma = false := by
        rw [Piece.isComma, decide_eq_false_iff_not]
        exact hk _
      have hnone : ms.countP (·.token == .comma) = 0 := by
        rcases hms with rfl | ⟨-, rfl⟩ <;> rfl
      refine ⟨ms ++ ls₁, ls₂, isOpen'', cs'', by rw [List.append_assoc], hscans, ?_, ?_, ?_⟩
      · refine List.forall_mem_append.mpr ⟨fun l hl => ?_, hpos⟩
        rw [hms.eq_of_mem hl]
        exact hlt
      · refine List.forall_mem_cons.mpr ⟨fun t ht => absurd ht (hk t), fun q hq t ht => ?_⟩
        obtain ⟨l, hl, htoken⟩ := htokens q hq t ht
        exact ⟨l, List.mem_append_right _ hl, htoken⟩
      · rw [List.countP_append, hnone, hcount, List.countP_cons_of_neg (by simp [hcomma]),
          Nat.zero_add]
    cases h with
    | blank hk hms _ hs => exact blank (fun t ht => by simp [ht] at hk) hms hs
    | comment hk hms _ hs => exact blank (fun t ht => by simp [ht] at hk) hms hs
    | @token _ _ _ _ _ t _ _ hk hs =>
      obtain ⟨ls₁, ls₂, isOpen'', cs'', rfl, hscans, hpos, htokens, hcount⟩ := ih hs hps
      rw [Nat.add_assoc, ← byteLength_append, ← Piece.texts_cons] at hscans hpos
      refine ⟨lexemeAt offset t p.text :: ls₁, ls₂, isOpen'', cs'', rfl, hscans, ?_, ?_, ?_⟩
      · exact List.forall_mem_cons.mpr ⟨hlt, hpos⟩
      · refine List.forall_mem_cons.mpr ⟨fun t' ht => ?_, fun q hq t' ht => ?_⟩
        · rw [hk] at ht
          cases ht
          exact ⟨_, List.mem_cons_self, rfl⟩
        · obtain ⟨l, hl, htoken⟩ := htokens q hq t' ht
          exact ⟨l, List.mem_cons_of_mem _ hl, htoken⟩
      · have hcomma : p.isComma = (t == .comma) := by
          rw [Piece.isComma, hk, Bool.eq_iff_iff, decide_eq_true_iff,
            Piece.Class.token.injEq, beq_iff_eq]
        rw [List.countP_cons, List.countP_cons, hcount, hcomma]
        rfl

/-- A token is one of the pieces of a text. -/
theorem Scan.Scans.exists_token_piece {offset : Nat} {isOpen : Bool} {ps : List Piece}
    {ls : List Lexeme} {cs : List Comment} (h : Scans offset isOpen ps ls cs)
    (hps : Piece.AllSpelled ps) {l : Lexeme} (hl : l ∈ ls) (hsemi : l.token ≠ .semicolon)
    (heof : l.token ≠ .eof) :
    ∃ ps₁ p ps₂, ps = ps₁ ++ p :: ps₂ ∧ l.pos = .atOffset (offset + byteLength (Piece.texts ps₁)) ∧
      l.stop = .atOffset (offset + byteLength (Piece.texts (ps₁ ++ [p]))) := by
  -- one more piece before the rest
  have behind {offset : Nat} {p : Piece} {ps : List Piece} {l : Lexeme}
      (h : ∃ ps₁ x ps₂, ps = ps₁ ++ x :: ps₂ ∧
        l.pos = .atOffset (offset + byteLength p.text + byteLength (Piece.texts ps₁)) ∧
        l.stop = .atOffset (offset + byteLength p.text + byteLength (Piece.texts (ps₁ ++ [x])))) :
      ∃ ps₁ x ps₂, p :: ps = ps₁ ++ x :: ps₂ ∧
      l.pos = .atOffset (offset + byteLength (Piece.texts ps₁)) ∧
        l.stop = .atOffset (offset + byteLength (Piece.texts (ps₁ ++ [x]))) := by
    obtain ⟨ps₁, x, ps₂, rfl, hpos, hstop⟩ := h
    refine ⟨p :: ps₁, x, ps₂, rfl, ?_, ?_⟩
    · rw [hpos, Piece.texts_cons, byteLength_append, Nat.add_assoc]
    · rw [hstop, List.cons_append, Piece.texts_cons, byteLength_append, Nat.add_assoc]
  induction h with
  | nil hms =>
    rw [List.mem_singleton.mp (hms.mem_of_ne hsemi hl)] at heof
    exact absurd rfl heof
  | blank _ hms _ _ ih | comment _ hms _ _ ih => exact behind (ih hps.tail (hms.mem_of_ne hsemi hl))
  | @token offset _ _ p ps _ _ _ hk _ ih =>
    rcases List.mem_cons.mp hl with rfl | hl
    · exact ⟨[], p, ps, rfl, rfl, by rw [stop_lexemeAt (hps.head hk)]; simp⟩
    · exact behind (ih hps.tail hl)

/-- A comment is one of the pieces of a text. -/
theorem Scan.Scans.exists_comment_piece {offset : Nat} {isOpen : Bool} {ps : List Piece}
    {ls : List Lexeme} {cs : List Comment} (h : Scans offset isOpen ps ls cs) {c : Comment}
    (hc : c ∈ cs) :
    ∃ ps₁ p ps₂, ps = ps₁ ++ p :: ps₂ ∧ c.pos = .atOffset (offset + byteLength (Piece.texts ps₁)) ∧
      c.stop = .atOffset (offset + byteLength (Piece.texts (ps₁ ++ [p]))) := by
  induction h with
  | nil => cases hc
  | @blank _ _ _ p _ _ _ _ _ _ _ _ ih | @token _ _ _ p _ _ _ _ _ _ ih =>
    obtain ⟨ps₁, x, ps₂, rfl, hpos, hstop⟩ := ih hc
    refine ⟨p :: ps₁, x, ps₂, rfl, ?_, ?_⟩
    · rw [hpos, Piece.texts_cons, byteLength_append, Nat.add_assoc]
    · rw [hstop, List.cons_append, Piece.texts_cons, byteLength_append, Nat.add_assoc]
  | @comment _ _ _ _ p ps _ _ _ _ _ _ _ ih =>
    rcases List.mem_cons.mp hc with rfl | hc
    · exact ⟨[], p, ps, rfl, rfl, by simp [Comment.stop]⟩
    · obtain ⟨ps₁, x, ps₂, rfl, hpos, hstop⟩ := ih hc
      refine ⟨p :: ps₁, x, ps₂, rfl, ?_, ?_⟩
      · rw [hpos, Piece.texts_cons, byteLength_append, Nat.add_assoc]
      · rw [hstop, List.cons_append, Piece.texts_cons, byteLength_append, Nat.add_assoc]

namespace FileReading

variable {d : Dialect} {cs : List Char} (r : FileReading d cs) {p q : Pos}

/-- Whether a position stands between two pieces of a file. -/
def IsBreak (p : Pos) : Prop :=
  ∃ ps qs, r.pieces = ps ++ qs ∧ p = .atOffset (byteLength (Piece.texts ps))

theorem isBreak_zero : r.IsBreak (.atOffset 0) := ⟨[], r.pieces, rfl, rfl⟩

theorem isBreak_end : r.IsBreak (.atOffset (byteLength cs)) :=
  ⟨r.pieces, [], (List.append_nil _).symm, by rw [r.splits.texts_eq]⟩

theorem isBreak_comment {c : Comment} (hc : c ∈ r.comments) :
    r.IsBreak c.pos ∧ r.IsBreak c.stop := by
  obtain ⟨ps₁, x, ps₂, hpieces, hpos, hstop⟩ := r.scans.exists_comment_piece hc
  rw [Nat.zero_add] at hpos hstop
  exact ⟨⟨ps₁, x :: ps₂, hpieces, hpos⟩, ⟨ps₁ ++ [x], ps₂, by simpa using hpieces, hstop⟩⟩

/-- Words begin and end between pieces. -/
theorem isBreak_word {w : Word} (hw : w ∈ r.words) (hsemi : w.isSemicolon = false) :
    r.IsBreak w.start ∧ r.IsBreak w.stop := by
  cases w with
  | lexeme l =>
    have hmem := Word.mem_lexemes.mpr hw
    have hsemi : l.token ≠ .semicolon := by simpa [Word.isSemicolon] using hsemi
    obtain ⟨ps₁, x, ps₂, hpieces, hpos, hstop⟩ := r.scans.exists_token_piece r.splits.allSpelled
      (List.mem_append_left _ hmem) hsemi (r.ended.ne_eof hmem)
    rw [Nat.zero_add] at hpos hstop
    exact ⟨⟨ps₁, x :: ps₂, hpieces, hpos⟩, ⟨ps₁ ++ [x], ps₂, by simpa using hpieces, hstop⟩⟩
  | doc g =>
    obtain ⟨c, ds, line, rfl, hsub, -, hstart, hstop⟩ := r.exists_of_doc hw
    rw [Word.start, hstart]
    refine ⟨(r.isBreak_comment (hsub.subset List.mem_cons_self)).1, ?_⟩
    -- the group ends with its last comment
    obtain ⟨front, e, heq⟩ : ∃ front e, c :: ds = front ++ [e] :=
      ⟨_, _, (List.dropLast_concat_getLast (List.cons_ne_nil c ds)).symm⟩
    rw [heq] at hsub hstop ⊢
    have hlast : (CommentGroup.ofComments (front ++ [e]) line).stop = e.stop := by
      simp [CommentGroup.ofComments]
    have hge : e.stop ≤ (CommentGroup.ofComments (front ++ [e]) line).tree.stop :=
      CommentGroup.stop_le_stop_tree (by simp)
    rw [hlast] at hstop
    have hstop := Nat.le_antisymm hstop hge
    rw [Word.stop, show (CommentGroup.ofComments (front ++ [e]) line).tree.stop =
      e.stop from congrArg Pos.mk hstop]
    exact (r.isBreak_comment (hsub.subset (by simp))).2

variable {r}

theorem IsBreak.isCut (h : r.IsBreak p) : IsCut cs p := by
  obtain ⟨ps, qs, hpieces, rfl⟩ := h
  exact ⟨Piece.texts ps, Piece.texts qs, by rw [← Piece.texts_append, ← hpieces, r.splits.texts_eq],
    rfl⟩

/-- Of two places between pieces the one is the other, or pieces stand between. -/
theorem IsBreak.exists_between (hp : r.IsBreak p) (hq : r.IsBreak q) (hle : p ≤ q) :
    ∃ ps qs us, r.pieces = ps ++ (qs ++ us) ∧ p = .atOffset (byteLength (Piece.texts ps)) ∧
      q = .atOffset (byteLength (Piece.texts ps) + byteLength (Piece.texts qs)) := by
  obtain ⟨ps, vs, hpieces, rfl⟩ := hp
  obtain ⟨ps', us, hpieces', rfl⟩ := hq
  rcases List.append_eq_append_iff.mp (hpieces'.symm.trans hpieces) with ⟨m, rfl,
    rfl⟩ | ⟨m, rfl, rfl⟩
  · -- the second is not behind the first, so nothing stands between
    have hnil : m = [] := by
      cases m with
      | nil => rfl
      | cons x m =>
        have hwidth := byteLength_pos (r.splits.text_ne_nil (show x ∈ r.pieces by simp [hpieces]))
        rw [Pos.le_def] at hle
        simp only [Pos.atOffset, Piece.texts_append, Piece.texts_cons, byteLength_append] at hle
        omega
    subst hnil
    exact ⟨ps', [], vs, by simpa using hpieces, by simp, by simp⟩
  · exact ⟨ps, m, us, hpieces, rfl, by rw [Piece.texts_append, byteLength_append]⟩

/-- **Between two places of a file with only commas and semicolons between, the text has a substance
of as many commas.** -/
theorem IsBreak.exists_gap (hp : r.IsBreak p) (hq : r.IsBreak q) (hle : p ≤ q)
    (hloose : ∀ l ∈ Word.lexemes r.words, p ≤ l.pos → l.pos < q → l.token.isLoose = true) :
    ∃ gap, (Source.ofText cs).slice? ⟨p, q⟩ = some gap ∧ substance .nothing gap =
      List.replicate ((Word.lexemes r.words).countP fun l => l.isCommaFrom p && decide (l.pos < q))
      ',' := by
  obtain ⟨ps, qs, us, hpieces, rfl, rfl⟩ := hp.exists_between hq hle
  have hne (x : Piece) (hx : x ∈ r.pieces) := r.splits.text_ne_nil hx
  have hspelled := r.splits.allSpelled
  have hsplits := r.splits
  have hscans := r.scans
  rw [hpieces] at hne hspelled hsplits hscans
  obtain ⟨ls₁, ls', isOpen₁, cs₁, hlexemes, hscans, hpos₁, -, -⟩ := hscans.exists_cut fun x hx =>
    hne x (List.mem_append_left _ hx)
  obtain ⟨ls₂, ls₃, isOpen₂, cs₂, rfl, hscans₃, hpos₂, htokens, hcount⟩ :=
    hscans.exists_cut fun x hx =>
    hne x (List.mem_append_right _ (List.mem_append_left _ hx))
  rw [Nat.zero_add] at hscans hscans₃ hpos₁ hpos₂
  have hpos₂' (l : Lexeme) (hl : l ∈ ls₂) := hscans.le_pos (List.mem_append_left _ hl)
  have hpos₃ (l : Lexeme) (hl : l ∈ ls₃) := hscans₃.le_pos hl
  have hlast : r.last.token = .eof := r.ended.eof
  refine ⟨Piece.texts qs, Source.slice?_eq_some_iff.mpr ⟨Piece.texts ps, Piece.texts us, ?_,
    rfl, rfl⟩, ?_⟩
  · rw [Source.text_ofText, ← r.splits.texts_eq, hpieces, Piece.texts_append, Piece.texts_append]
  · obtain ⟨ds, hsplits⟩ := hsplits.exists_right
    rw [hsplits.substance_loose fun x hx t ht => ?_]
    · -- the commas in question are those among the lexemes of the pieces between
      refine congrArg (List.replicate · ',') (hcount.symm.trans ?_)
      generalize hf : (fun l : Lexeme => l.isCommaFrom (.atOffset (byteLength (Piece.texts ps))) &&
        decide (l.pos < .atOffset (byteLength (Piece.texts ps) + byteLength (Piece.texts qs)))) = f
      have hall := congrArg (List.countP f) hlexemes
      rw [List.countP_append, List.countP_append, List.countP_append] at hall
      have hend : List.countP f [r.last] = 0 := by
        rw [← hf, List.countP_eq_zero]
        simp [Lexeme.isCommaFrom, hlast]
      have hfront : ls₁.countP f = 0 := by
        rw [← hf, List.countP_eq_zero]
        intro l hl htrue
        simp only [Bool.and_eq_true, Lexeme.isCommaFrom_iff] at htrue
        exact absurd (hpos₁ l hl) (Nat.not_lt_of_le htrue.1.2)
      have hback : ls₃.countP f = 0 := by
        rw [← hf, List.countP_eq_zero]
        intro l hl htrue
        simp only [Bool.and_eq_true, decide_eq_true_eq] at htrue
        exact absurd htrue.2 (Nat.not_lt_of_le (hpos₃ l hl))
      have hmiddle : ls₂.countP f = ls₂.countP (·.token == .comma) := by
        refine List.countP_congr fun l hl => ?_
        rw [← hf]
        simp [Lexeme.isCommaFrom, hpos₂ l hl, hpos₂' l hl]
      omega
    · obtain ⟨l, hl, rfl⟩ := htokens x hx t ht
      have hmem : l ∈ Word.lexemes r.words ++ [r.last] := by simp [hlexemes, hl]
      rcases List.mem_append.mp hmem with hmem | hmem
      · exact hloose l hmem (hpos₂' l hl) (hpos₂ l hl)
      · have hspelling := hspelled x (by simp [hx]) _ ht
        rw [List.mem_singleton.mp hmem] at hspelling
        exact absurd hlast hspelling.ne_eof

end FileReading

end Graft
