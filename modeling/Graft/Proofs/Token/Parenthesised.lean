import Graft.Proofs.Token.Semicolons
import Mathlib.Data.List.Find

/-! # Lines in parentheses

No token goes on over a closing parenthesis, so a line without comments is cut into the same pieces
when one stands behind it (`Piece.Splits.paren`).  And what is scanned of a piece depends on the
pieces before it only through the place where it begins (`Scan.ofPieces_append`).  So the lexemes of
the line are those of a longer text, at other places, where a name or a parenthesis stands before it
and a parenthesis behind.
-/

namespace Graft

namespace Piece

variable {c : Char} {cs : List Char} {n : Nat}

/-! ### Recognising a piece in front of a parenthesis -/

theorem takeWhile_paren {p : Char → Bool} (hp : p ')' = false) (cs : List Char) :
    (cs ++ [')']).takeWhile p = cs.takeWhile p := by
  induction cs with
  | nil => simp [hp]
  | cons c cs ih => rw [List.cons_append, List.takeWhile_cons, List.takeWhile_cons, ih]

theorem runLength_paren {p : Char → Bool} (hp : p ')' = false) (cs : List Char) :
    runLength p (cs ++ [')']) = runLength p cs := congrArg List.length (takeWhile_paren hp cs)

/-- What a parenthesis at the end does not change, it does not change behind some characters. -/
theorem drop_paren {α : Type} {f : List Char → α} (hf : ∀ cs, f (cs ++ [')']) = f cs) (n : Nat)
    (cs : List Char) :
    f ((cs ++ [')']).drop n) = f (cs.drop n) := by
  rcases Nat.lt_or_ge cs.length n with hn | hn
  · rw [List.drop_eq_nil_of_le (by simp; omega), List.drop_eq_nil_of_le (Nat.le_of_lt hn)]
  · rw [List.drop_append_of_le_length hn, hf]

theorem head?_paren (hc : c ≠ ')') (cs : List Char) :
    ((cs ++ [')']).head? == some c) = (cs.head? == some c) := by
  cases cs with
  | nil => simp [hc.symm]
  | cons => rfl

theorem fractionLength_paren (cs : List Char) :
    fractionLength (cs ++ [')']) = fractionLength cs := by
  match cs with
  | [] => rfl
  | c :: cs =>
    rw [List.cons_append]
    by_cases hc : c = '.'
    · subst hc
      exact congrArg (1 + ·) (runLength_paren rfl cs)
    · unfold fractionLength
      split
      · simp_all
      · split
        · simp_all
        · rfl

theorem exponentLength_paren (cs : List Char) :
    exponentLength (cs ++ [')']) = exponentLength cs := by
  match cs with
  | [] => rfl
  | [c] => simp [exponentLength, runLength, isDigitChar]
  | c :: s :: ds =>
    have hds := runLength_paren (p := isDigitChar) rfl ds
    have hcs := runLength_paren (p := isDigitChar) rfl (s :: ds)
    simp only [List.cons_append] at hcs
    simp only [exponentLength, List.cons_append, hds, hcs]

theorem realNumber_paren (cs : List Char) : realNumber (cs ++ [')']) = realNumber cs := by
  unfold realNumber
  dsimp only
  rw [runLength_paren rfl, drop_paren fractionLength_paren, drop_paren exponentLength_paren]
  generalize exponentLength _ = exponent, fractionLength _ = fraction, runLength _ cs = whole
  match cs with
  | [] => rfl
  | [c] =>
    by_cases hc : c = '0'
    · subst hc
      rfl
    · simp [hc]
  | c :: b :: ds =>
    by_cases hc : c = '0'
    · subst hc
      have hds := runLength_paren (p := isHexChar) rfl ds
      simp [hds]
    · simp [hc]

/-- A number ends in front of a parenthesis. -/
theorem number_paren (cs : List Char) : number (cs ++ [')']) = number cs := by
  have hi (n : Nat) : (((cs ++ [')']).drop n).head? == some 'i') =
      ((cs.drop n).head? == some 'i') :=
    drop_paren (f := fun cs => cs.head? == some 'i') (head?_paren (by decide)) n cs
  unfold number
  rw [realNumber_paren]
  dsimp only
  rw [hi]

/-- A quoted literal ends in front of a parenthesis, which may stand inside it. -/
theorem quotedLength?_paren {quote : Char} (h : quotedLength? quote cs = some n) :
    quotedLength? quote (cs ++ [')']) = some n ∧ n ≤ cs.length := by
  fun_induction quotedLength? quote cs generalizing n with
  | case1 | case4 | case5 => cases h
  | case2 c cs hraw hend =>
    cases h
    refine ⟨?_, by simp⟩
    rw [List.cons_append, quotedLength?.eq_def]
    dsimp only
    rw [if_pos hraw, if_pos hend]
  | case3 c cs hraw hend ih =>
    obtain ⟨m, hm, rfl⟩ := Option.map_eq_some_iff.mp h
    obtain ⟨hparen, hle⟩ := ih hm
    refine ⟨?_, by simpa using hle⟩
    rw [List.cons_append, quotedLength?.eq_def]
    dsimp only
    rw [if_pos hraw, if_neg hend, hparen]
    rfl
  | case6 c hraw hline hescape d cs ih =>
    obtain ⟨m, hm, rfl⟩ := Option.map_eq_some_iff.mp h
    obtain ⟨hparen, hle⟩ := ih hm
    refine ⟨?_, by simpa using hle⟩
    rw [List.cons_append, List.cons_append, quotedLength?, if_neg hraw, if_neg hline,
      if_pos hescape, hparen]
    rfl
  | case7 c cs hraw hline hescape hend =>
    cases h
    refine ⟨?_, by simp⟩
    rw [List.cons_append, quotedLength?.eq_def]
    dsimp only
    rw [if_neg hraw, if_neg hline, if_neg hescape, if_pos hend]
  | case8 c cs hraw hline hescape hend ih =>
    obtain ⟨m, hm, rfl⟩ := Option.map_eq_some_iff.mp h
    obtain ⟨hparen, hle⟩ := ih hm
    refine ⟨?_, by simpa using hle⟩
    rw [List.cons_append, quotedLength?.eq_def]
    dsimp only
    rw [if_neg hraw, if_neg hline, if_neg hescape, if_neg hend, hparen]
    rfl

theorem operator?_paren (c : Char) (cs : List Char) :
    operator? (c :: cs ++ [')']) = operator? (c :: cs) := by
  have hall : ∀ t ∈ Token.operators, t.text.toList.getLast? = some ')' →
      t.text.toList.length = 1 := by decide
  refine List.find?_congr fun t ht => Bool.eq_iff_iff.mpr ?_
  rw [List.isPrefixOf_iff_prefix, List.isPrefixOf_iff_prefix, List.prefix_concat_iff]
  refine or_iff_right fun heq => ?_
  have hlength := hall t ht (by rw [heq, List.getLast?_concat])
  rw [heq] at hlength
  simp at hlength

/-! ### How long a piece is -/

theorem runLength_le (p : Char → Bool) (cs : List Char) : runLength p cs ≤ cs.length :=
  (List.takeWhile_prefix p).length_le

theorem fractionLength_le (cs : List Char) : fractionLength cs ≤ cs.length := by
  unfold fractionLength
  split
  · rename_i ds
    have hrun := runLength_le isDigitChar ds
    rw [List.length_cons]
    omega
  · exact Nat.zero_le _

theorem exponentLength_le (cs : List Char) : exponentLength cs ≤ cs.length := by
  match cs with
  | [] => exact Nat.le_refl 0
  | [c] =>
    simp only [exponentLength]
    split <;> simp
  | c :: s :: ds =>
    have hds := runLength_le isDigitChar ds
    have hs := runLength_le isDigitChar (s :: ds)
    simp only [exponentLength, List.length_cons] at hs ⊢
    split
    · split <;> omega
    · omega

theorem realNumber_le (cs : List Char) : (realNumber cs).2 ≤ cs.length := by
  have hwhole := runLength_le isDigitChar cs
  have hfraction := fractionLength_le (cs.drop (runLength isDigitChar cs))
  have hexponent := exponentLength_le
    (cs.drop (runLength isDigitChar cs + fractionLength (cs.drop (runLength isDigitChar cs))))
  rw [List.length_drop] at hfraction hexponent
  unfold realNumber
  dsimp only
  split
  · split
    · rename_i b ds _
      have hds := runLength_le isHexChar ds
      simp only [List.length_cons]
      omega
    · omega
  · omega

theorem number_le (cs : List Char) : (number cs).2 ≤ cs.length := by
  have hle := realNumber_le cs
  unfold number
  dsimp only
  split
  · rename_i hi
    rw [beq_iff_eq, List.head?_drop] at hi
    exact (List.getElem?_eq_some_iff.mp hi).1
  · exact hle

/-! ### Cutting a line in front of a parenthesis -/

/-- No token goes on over a parenthesis. -/
theorem recogniseToken_paren {t : Token} (h : recogniseToken c cs = .ok (t, n)) :
    recogniseToken c (cs ++ [')']) = .ok (t, n) ∧ n ≤ cs.length := by
  unfold recogniseToken at h ⊢
  split at h
  · rename_i hletter
    cases h
    rw [if_pos hletter, takeWhile_paren rfl]
    exact ⟨rfl, runLength_le isWordChar cs⟩
  rename_i hletter
  rw [if_neg hletter]
  have hpoint : ((cs ++ [')']).head?.map Char.isDigit).getD false =
      (cs.head?.map Char.isDigit).getD false := by
    cases cs <;> rfl
  rw [hpoint]
  split at h
  · rename_i hdigit
    have hle := number_le (c :: cs)
    have hn : (number (c :: cs)).2 - 1 = n := (Prod.mk.inj (Except.ok.inj h)).2
    rw [if_pos hdigit, ← List.cons_append, number_paren]
    rw [List.length_cons] at hle
    exact ⟨h, by omega⟩
  rename_i hdigit
  rw [if_neg hdigit]
  split at h
  · rename_i hquote
    rw [if_pos hquote]
    split at h
    · rename_i m hm
      obtain ⟨hparen, hle⟩ := quotedLength?_paren hm
      cases h
      rw [hparen]
      exact ⟨rfl, hle⟩
    · cases h
  · rename_i hquote
    rw [if_neg hquote, ← List.cons_append, operator?_paren]
    refine ⟨h, ?_⟩
    split at h
    · rename_i t hop
      cases h
      have hlength := (operator?_eq_some hop).2.length_le
      rw [String.length_toList, List.length_cons] at hlength
      omega
    · cases h

theorem recognise_paren {kind : Class} (h : recognise c cs = .ok (kind, n)) (hk : kind ≠ .comment) :
    recognise c (cs ++ [')']) = .ok (kind, n) ∧ n ≤ cs.length := by
  unfold recognise at h ⊢
  split at h
  · rename_i hc
    cases h
    rw [if_pos hc]
    exact ⟨rfl, Nat.zero_le _⟩
  rename_i hc
  rw [if_neg hc]
  split at h
  · rename_i hc
    cases h
    rw [if_pos hc]
    exact ⟨rfl, Nat.zero_le _⟩
  rename_i hc
  rw [if_neg hc, head?_paren (by decide), head?_paren (by decide)]
  split at h
  · cases h
    exact absurd rfl hk
  rename_i hc
  rw [if_neg hc]
  split at h
  · split at h
    · cases h
      exact absurd rfl hk
    · cases h
  rename_i hc
  rw [if_neg hc]
  cases hr : recogniseToken c cs with
  | error => rw [hr] at h; cases h
  | ok x =>
    obtain ⟨hparen, hle⟩ := recogniseToken_paren hr
    rw [hr] at h
    cases h
    rw [hparen]
    exact ⟨rfl, hle⟩

/-- **A line without comments is cut into the same pieces in front of a parenthesis.** -/
theorem Splits.paren {ps : List Piece} (h : Splits cs ps) (hps : ∀ p ∈ ps, p.kind ≠ .comment) :
    Splits (cs ++ [')']) (ps ++ [⟨.token .rparen, [')']⟩]) := by
  induction h with
  | nil => exact .cons (n := 0) rfl .nil
  | @cons c cs kind n ps hr _ ih =>
    obtain ⟨hk, hps⟩ := List.forall_mem_cons.mp hps
    obtain ⟨hparen, hle⟩ := recognise_paren hr hk
    have hrest := ih hps
    rw [← List.drop_append_of_le_length hle] at hrest
    have hsplits := Splits.cons hparen hrest
    rwa [List.take_append_of_le_length hle] at hsplits

theorem Splits.behind_lparen {ps : List Piece} (h : Splits cs ps) :
    Splits ('(' :: cs) (⟨.token .lparen, ['(']⟩ :: ps) := .cons (n := 0) rfl h

theorem Splits.behind_name {ps : List Piece} (h : Splits ('(' :: cs) ps) :
    Splits ('f' :: '(' :: cs) (⟨.token .ident, ['f']⟩ :: ps) := .cons (n := 0) rfl h

end Piece

namespace Scan

open Piece

/-- The lexemes of the tokens among some pieces that begin at `offset`. -/
def written (offset : Nat) : List Piece → List Lexeme
  | [] => []
  | p :: ps =>
    match p.kind with
    | .token t => lexemeAt offset t p.text :: written (offset + byteLength p.text) ps
    | _ => written (offset + byteLength p.text) ps

/-- Whether all pieces are on one line and none of them is a comment. -/
def IsLine (ps : List Piece) : Prop := ∀ p ∈ ps, p.kind ≠ .newline ∧ p.kind ≠ .comment

variable {d : Dialect} {offset : Nat} {ps : List Piece}

/-- The same lexemes stand further behind. -/
theorem written_add (offset n : Nat) (ps : List Piece) :
    written (offset + n) ps = (written offset ps).map fun l =>
      { l with pos := l.pos.advance n } := by
  induction ps generalizing offset with
  | nil => rfl
  | cons p ps ih =>
    have hrest := ih (offset + byteLength p.text)
    rw [Nat.add_right_comm] at hrest
    cases hk : p.kind with
    | token t =>
      simp only [written, hk, hrest, List.map_cons, List.cons_eq_cons, and_true]
      rw [lexemeAt, lexemeAt, Pos.advance_atOffset]
    | _ => simp only [written, hk, hrest]

/-- **What is scanned of a line is scanned of it in front of anything else.** -/
theorem ofPieces_append (hps : IsLine ps) (d : Dialect) (offset : Nat) (isOpen busy : Bool) :
    ∃ isOpen' busy', ∀ qs, ofPieces d offset isOpen busy (ps ++ qs) =
      let rest := ofPieces d (offset + byteLength (texts ps)) isOpen' busy' qs
      { rest with lexemes := written offset ps ++ rest.lexemes } := by
  induction ps generalizing offset isOpen busy with
  | nil => exact ⟨isOpen, busy, fun _ => rfl⟩
  | cons p ps ih =>
    obtain ⟨⟨hnewline, hcomment⟩, hps⟩ := List.forall_mem_cons.mp hps
    rw [texts_cons, byteLength_append, ← Nat.add_assoc]
    cases hk : p.kind with
    | newline => exact absurd hk hnewline
    | comment => exact absurd hk hcomment
    | blank =>
      obtain ⟨isOpen', busy', hrest⟩ := ih hps (offset + byteLength p.text) isOpen busy
      refine ⟨isOpen', busy', fun qs => ?_⟩
      simp only [List.cons_append, ofPieces, written, hk, hrest]
    | token t =>
      obtain ⟨isOpen', busy', hrest⟩ := ih hps (offset + byteLength p.text) (t.endsStatement d) true
      refine ⟨isOpen', busy', fun qs => ?_⟩
      simp only [List.cons_append, ofPieces, written, hk, hrest]
      rfl

theorem ofText_of_splits {cs : List Char} (h : Splits cs ps) :
    ofText d cs = .ok (ofPieces d 0 false false ps) := by
  have hsplit (offset : Nat) : split offset cs = .ok ps := by
    induction h generalizing offset with
    | nil => rw [split]
    | cons hr _ ih =>
      rw [split, hr]
      dsimp only
      rw [ih]
      rfl
  rw [ofText, hsplit]
  rfl

/-- The pieces of a text without line ends and comments. -/
theorem exists_line_of_ofText {cs : List Char} {s : Scan} (h : ofText d cs = .ok s)
    (hline : '\n' ∉ cs) (hcomments : s.comments = []) : ∃ ps, Splits cs ps ∧ IsLine ps ∧
      ofPieces d 0 false false ps = s := by
  have noComment {offset : Nat} {isOpen : Bool} {ps : List Piece} {ls : List Lexeme}
      {cs : List Comment}
      (h : Scans offset isOpen ps ls cs) (hcs : cs = []) : ∀ p ∈ ps, p.kind ≠ .comment := by
    induction h with
    | nil => nofun
    | comment => cases hcs
    | blank hk _ _ _ ih =>
      exact List.forall_mem_cons.mpr ⟨by rcases hk with hk | hk <;> simp [hk], ih hcs⟩
    | token hk _ ih => exact List.forall_mem_cons.mpr ⟨by simp [hk], ih hcs⟩
  obtain ⟨ps, hps, hscans⟩ := scans_of_ofText h
  have hs := (ofText_of_splits hps).symm.trans h
  refine ⟨ps, hps, fun p hp => ⟨fun hk => hline ?_, noComment hscans hcomments p hp⟩,
    Except.ok.inj hs⟩
  have hmem : '\n' ∈ p.text := by simp [(hps.endLines p hp).1 hk]
  rw [← hps.texts_eq]
  exact List.mem_flatMap.mpr ⟨p, hp, hmem⟩

/-- What is scanned of a parenthesis at the end of a text. -/
def closingParen (offset : Nat) : List Lexeme :=
  [⟨.rparen, .atOffset offset, ""⟩, lineEnd (offset + 1), ⟨.eof, .atOffset (offset + 1), ""⟩]

/-- The lexemes of a line in parentheses, behind the ones before it. -/
theorem ofText_paren (d : Dialect) (qs : List Piece) {cs : List Char} (hqs : IsLine qs)
    (hps : IsLine ps) (h : Splits cs (qs ++ (ps ++ [⟨.token .rparen, [')']⟩]))) :
    ofText d cs = .ok ⟨written 0 qs ++ (written (byteLength (texts qs)) ps ++
      closingParen (byteLength (texts qs) + byteLength (texts ps))), []⟩ := by
  obtain ⟨o₁, b₁, hfront⟩ := ofPieces_append hqs d 0 false false
  obtain ⟨o₂, b₂, hback⟩ := ofPieces_append hps d (0 + byteLength (texts qs)) o₁ b₁
  rw [ofText_of_splits h, hfront, hback, Nat.zero_add]
  rfl

/-- The lexemes of a line end with the end of the text, perhaps with a line end before it. -/
theorem lexemes_ofPieces (hps : IsLine ps) :
    ∃ ls, (ls = [] ∨ ls = [lineEnd (byteLength (texts ps))]) ∧
    (ofPieces d 0 false false ps).lexemes =
      written 0 ps ++ (ls ++ [⟨.eof, .atOffset (byteLength (texts ps)), ""⟩]) := by
  obtain ⟨isOpen, busy, hall⟩ := ofPieces_append hps d 0 false false
  have heq := hall []
  rw [List.append_nil, Nat.zero_add] at heq
  obtain ⟨ls, hls, hclose⟩ := closeLine_lexemes isOpen (byteLength (texts ps))
    ⟨[⟨.eof, .atOffset (byteLength (texts ps)), ""⟩], []⟩
  refine ⟨ls, hls.imp_right And.right, ?_⟩
  rw [heq, ← hclose]
  rfl

/-! ### The first and the last character -/

/-- The piece of a lexeme, between those of the ones before it and behind it. -/
theorem exists_of_written {l : Lexeme} {ls ls' : List Lexeme}
    (h : written offset ps = ls ++ l :: ls') :
    ∃ ps₁ p ps₂ n n', ps = ps₁ ++ p :: ps₂ ∧ l = lexemeAt n l.token p.text ∧
      p.kind = .token l.token ∧
      written offset ps₁ = ls ∧ written n' ps₂ = ls' := by
  induction ps generalizing offset ls with
  | nil => simp [written] at h
  | cons p ps ih =>
    rw [written] at h
    have later {ls₁ : List Lexeme} (hrest : written (offset + byteLength p.text) ps =
        ls₁ ++ l :: ls')
        (hls : ∀ ps₁, written (offset + byteLength p.text) ps₁ = ls₁ →
          written offset (p :: ps₁) = ls) :
        ∃ ps₁ q ps₂ n n', p :: ps = ps₁ ++ q :: ps₂ ∧ l = lexemeAt n l.token q.text ∧
          q.kind = .token l.token ∧ written offset ps₁ = ls ∧ written n' ps₂ = ls' := by
      obtain ⟨ps₁, q, ps₂, n, n', rfl, hl, hk, hfront, hback⟩ := ih hrest
      exact ⟨p :: ps₁, q, ps₂, n, n', rfl, hl, hk, hls ps₁ hfront, hback⟩
    cases hk : p.kind with
    | token t =>
      rw [hk] at h
      cases ls with
      | nil =>
        cases h
        exact ⟨[], p, ps, offset, _, rfl, rfl, hk, rfl, rfl⟩
      | cons m ls =>
        obtain ⟨rfl, hrest⟩ := List.cons_eq_cons.mp h
        exact later hrest fun ps₁ hps₁ => by simp only [written, hk, hps₁]
    | _ =>
      rw [hk] at h
      exact later h fun ps₁ hps₁ => by simp only [written, hk, hps₁]

/-- A line without tokens is blank. -/
theorem blank_of_written (hps : IsLine ps) (hblank : AllBlank ps) (h : written offset ps = []) :
    ∀ c ∈ texts ps, c ∈ blanks := by
  induction ps generalizing offset with
  | nil => nofun
  | cons p ps ih =>
    rw [written] at h
    cases hk : p.kind with
    | token => simp [hk] at h
    | newline => exact absurd hk (hps p List.mem_cons_self).1
    | comment => exact absurd hk (hps p List.mem_cons_self).2
    | blank =>
      rw [hk] at h
      obtain ⟨c, hc, htext⟩ := hblank p List.mem_cons_self (.inr hk)
      rw [texts_cons, htext]
      exact List.forall_mem_cons.mpr ⟨hc, ih (List.forall_mem_cons.mp hps).2 hblank.tail h⟩

end Scan

/-- The first character of a text that is no blank. -/
def firstChar? (cs : List Char) : Option Char := cs.find? (!Piece.blanks.contains ·)

/-- The last character of a text that is no blank. -/
def lastChar? (cs : List Char) : Option Char := firstChar? cs.reverse

theorem firstChar?_append {bs cs : List Char} {c : Char} (hbs : ∀ b ∈ bs, b ∈ Piece.blanks)
    (hc : c ∉ Piece.blanks) :
    firstChar? (bs ++ c :: cs) = some c := by
  have hnone : bs.find? (!Piece.blanks.contains ·) = none := by simpa using hbs
  rw [firstChar?, List.find?_append, hnone, Option.none_or, List.find?_cons_of_pos]
  simpa using hc

namespace Scan

open Piece

variable {d : Dialect} {offset : Nat} {ps : List Piece} {cs : List Char} {l : Lexeme}
  {ls : List Lexeme} {c : Char}

/-- A line begins with the character of its first token, blanks aside. -/
theorem firstChar?_of_written (h : Splits cs ps) (hps : IsLine ps)
    (hls : written offset ps = l :: ls) (hl : ∀ w, IsSpelling l.token w → w = [c])
    (hc : c ∉ blanks) : firstChar? cs = some c := by
  obtain ⟨ps₁, p, ps₂, n, n', rfl, -, hk, hfront, -⟩ :=
    exists_of_written (show _ = [] ++ l :: ls from hls)
  obtain ⟨hps₁, -⟩ := List.forall_mem_append.mp hps
  have htext := hl _ (h.allSpelled p (by simp) _ hk)
  rw [← h.texts_eq, texts_append, texts_cons, htext]
  exact firstChar?_append (blank_of_written hps₁ (fun q hq => h.allBlank q (by simp [hq])) hfront)
    hc

/-- A line ends with the character of its last token, blanks aside. -/
theorem lastChar?_of_written (h : Splits cs ps) (hps : IsLine ps)
    (hls : written offset ps = ls ++ [l]) (hl : ∀ w, IsSpelling l.token w → w = [c])
    (hc : c ∉ blanks) : lastChar? cs = some c := by
  obtain ⟨ps₁, p, ps₂, n, n', rfl, -, hk, -, hback⟩ :=
    exists_of_written (show _ = ls ++ l :: [] from hls)
  obtain ⟨-, hps₂⟩ := List.forall_mem_append.mp hps
  have htext := hl _ (h.allSpelled p (by simp) _ hk)
  have hblank := blank_of_written (List.forall_mem_cons.mp hps₂).2
    (fun q hq => h.allBlank q (by simp [hq])) hback
  have hreverse : firstChar? ((texts ps₂).reverse ++ c :: (texts ps₁).reverse) = some c :=
    firstChar?_append (fun b hb => hblank b (List.mem_reverse.mp hb)) hc
  rw [← h.texts_eq, texts_append, texts_cons, htext, lastChar?]
  simpa using hreverse

/-- The semicolons of a line are written in it. -/
theorem isInserted_of_written (h : Splits cs ps) (hl : l ∈ written offset ps) :
    l.isInserted = false := by
  obtain ⟨ls, ls', hsplit⟩ := List.append_of_mem hl
  obtain ⟨ps₁, p, ps₂, n, n', rfl, heq, hk, -⟩ := exists_of_written hsplit
  have hspelling := h.allSpelled p (by simp) _ hk
  have hwritten : (lexemeAt n l.token p.text).isWritten = true := isWritten_lexemeAt hspelling
  rw [← heq, Lexeme.isWritten, Bool.and_eq_true, Bool.not_eq_true'] at hwritten
  exact hwritten.2

end Scan

end Graft
