import Graft.Proofs.Text.Slice
import Graft.Proofs.Token.Pieces

/-! # Where lexemes and comments stand

`Scans` says what each piece of a text adds to its lexemes and comments: a token adds a lexeme, a
comment a comment, and a piece at which a line ends may add a semicolon.  Everything said here of
all lexemes or all comments is an induction over it: they stand in order, their spellings stand in
the text where they say (`Scan.Scans.slice?_lexeme`), and behind the last of them the text is blank.
-/

namespace Graft

theorem Pos.le_of_atOffset_add_le {m n : Nat} {p : Pos} (h : .atOffset (m + n) ≤ p) :
    .atOffset m ≤ p := by
  rw [Pos.le_def] at *
  simp only [Pos.atOffset] at *
  omega

/-- What stands behind some characters stands behind their beginning. -/
theorem Pos.atOffset_lt_of_le {w : List Char} (hw : w ≠ []) {n : Nat} {p : Pos}
    (h : .atOffset (n + byteLength w) ≤ p) : .atOffset n < p := by
  have hwidth := byteLength_pos hw
  rw [Pos.le_def] at h
  rw [Pos.lt_def]
  simp only [Pos.atOffset] at h ⊢
  omega

/-- Whether the lexemes end with the end of the text, which stands nowhere else. -/
def Ended : List Lexeme → Prop
  | [] => False
  | [l] => l.token = .eof
  | l :: m :: ls => l.token ≠ .eof ∧ Ended (m :: ls)

theorem Ended.cons {l : Lexeme} {ls : List Lexeme} (hl : l.token ≠ .eof) (h : Ended ls) :
    Ended (l :: ls) := by
  cases ls with
  | nil => cases h
  | cons m ls => exact ⟨hl, h⟩

namespace Lexeme

/-- The characters that stand for a lexeme. -/
def spelling (l : Lexeme) : String := if l.token.carriesText then l.text else l.token.text

theorem spelling_of_carriesText {l : Lexeme} (h : l.token.carriesText = true) :
    l.spelling = l.text := by rw [spelling, h]; rfl

theorem spelling_of_not_carriesText {l : Lexeme} (h : l.token.carriesText = false) :
    l.spelling = l.token.text := by rw [spelling, h]; rfl

/-- Where a lexeme ends. -/
def stop (l : Lexeme) : Pos := l.pos.advance l.spelling.utf8ByteSize

/-- Whether a lexeme stands before another.  The semicolon that a line end stands for may stand at
the place of the end of the text. -/
def Before (l m : Lexeme) : Prop := l.pos ≤ m.pos ∧ (l.token ≠ .semicolon → l.stop ≤ m.pos)

end Lexeme

namespace Scan

/-- The semicolons that the end of a line at `offset` may add. -/
def LineEnds (offset : Nat) (isOpen : Bool) (ls : List Lexeme) : Prop :=
  ls = [] ∨ isOpen = true ∧ ls = [lineEnd offset]

/-- The lexeme that a token piece at `offset` adds. -/
def lexemeAt (offset : Nat) (t : Token) (text : List Char) : Lexeme :=
  ⟨t, .atOffset offset, if t.carriesText then String.ofList text else ""⟩

/-- The lexemes and comments of pieces that begin at `offset`, where `isOpen` tells whether a
line end adds a semicolon. -/
inductive Scans : Nat → Bool → List Piece → List Lexeme → List Comment → Prop where
  | nil {offset : Nat} {isOpen : Bool} {ls : List Lexeme} (hl : LineEnds offset isOpen ls) :
    Scans offset isOpen [] (ls ++ [⟨.eof, .atOffset offset, ""⟩]) []
  | blank {offset : Nat} {isOpen isOpen' : Bool} {p : Piece} {ps : List Piece}
      {ls ls' : List Lexeme}
      {cs : List Comment} (hk : p.kind = .newline ∨ p.kind = .blank)
      (hl : LineEnds offset isOpen ls)
      (ho : isOpen = false → isOpen' = false)
      (hs : Scans (offset + byteLength p.text) isOpen' ps ls' cs) :
    Scans offset isOpen (p :: ps) (ls ++ ls') cs
  | comment {offset : Nat} {isOpen isOpen' ownLine : Bool} {p : Piece} {ps : List Piece}
      {ls ls' : List Lexeme} {cs : List Comment} (hk : p.kind = .comment)
      (hl : LineEnds offset isOpen ls) (ho : isOpen = false → isOpen' = false)
      (hs : Scans (offset + byteLength p.text) isOpen' ps ls' cs) :
    Scans offset isOpen (p :: ps) (ls ++ ls')
      (⟨.atOffset offset, String.ofList p.text, ownLine⟩ :: cs)
  | token {offset : Nat} {isOpen isOpen' : Bool} {p : Piece} {ps : List Piece} {t : Token}
      {ls : List Lexeme} {cs : List Comment} (hk : p.kind = .token t)
      (hs : Scans (offset + byteLength p.text) isOpen' ps ls cs) :
    Scans offset isOpen (p :: ps) (lexemeAt offset t p.text :: ls) cs

@[simp] theorem closeLine_comments (isOpen : Bool) (offset : Nat) (s : Scan) :
    (closeLine isOpen offset s).comments = s.comments := by
  unfold closeLine
  split <;> rfl

theorem closeLine_lexemes (isOpen : Bool) (offset : Nat) (s : Scan) :
    ∃ ls, LineEnds offset isOpen ls ∧ (closeLine isOpen offset s).lexemes = ls ++ s.lexemes := by
  cases isOpen with
  | false => exact ⟨[], .inl rfl, rfl⟩
  | true => exact ⟨_, .inr ⟨rfl, rfl⟩, rfl⟩

theorem LineEnds.weaken {offset : Nat} {isOpen isOpen' : Bool} {ls : List Lexeme}
    (h : LineEnds offset isOpen' ls) (ho : isOpen' = true → isOpen = true) :
    LineEnds offset isOpen ls := by
  rcases h with rfl | ⟨h, rfl⟩
  · exact .inl rfl
  · exact .inr ⟨ho h, rfl⟩

theorem LineEnds.eq_of_mem {offset : Nat} {isOpen : Bool} {ls : List Lexeme} {l : Lexeme}
    (h : LineEnds offset isOpen ls) (hl : l ∈ ls) : l = lineEnd offset := by
  rcases h with rfl | ⟨-, rfl⟩
  · cases hl
  · exact List.mem_singleton.mp hl

/-- A token that is no semicolon is none that a line end adds. -/
theorem LineEnds.mem_of_ne {offset : Nat} {isOpen : Bool} {ls ms : List Lexeme} {l : Lexeme}
    (h : LineEnds offset isOpen ls) (hsemi : l.token ≠ .semicolon) (hl : l ∈ ls ++ ms) :
    l ∈ ms := by
  rcases List.mem_append.mp hl with hl | hl
  · rw [h.eq_of_mem hl] at hsemi
    exact absurd rfl hsemi
  · exact hl

theorem LineEnds.ended {offset : Nat} {isOpen : Bool} {ls ls' : List Lexeme}
    (h : LineEnds offset isOpen ls) (he : Ended ls') : Ended (ls ++ ls') := by
  rcases h with rfl | ⟨-, rfl⟩
  · exact he
  · exact .cons nofun he

/-- What `Scans` says, together with the flag `busy` that tells whether a token stands on the
current line already: tokens set it, newlines clear it, and a comment stands alone on its line if it
is not set. -/
inductive Lined : Nat → Bool → Bool → List Piece → List Lexeme → List Comment → Prop where
  | nil {offset : Nat} {isOpen busy : Bool} {ls : List Lexeme} (hl : LineEnds offset isOpen ls) :
    Lined offset isOpen busy [] (ls ++ [⟨.eof, .atOffset offset, ""⟩]) []
  | newline {offset : Nat} {isOpen busy : Bool} {p : Piece} {ps : List Piece} {ls ls' : List Lexeme}
      {cs : List Comment} (hk : p.kind = .newline) (hl : LineEnds offset isOpen ls)
      (hs : Lined (offset + byteLength p.text) false false ps ls' cs) :
    Lined offset isOpen busy (p :: ps) (ls ++ ls') cs
  | blank {offset : Nat} {isOpen busy : Bool} {p : Piece} {ps : List Piece} {ls : List Lexeme}
      {cs : List Comment} (hk : p.kind = .blank)
      (hs : Lined (offset + byteLength p.text) isOpen busy ps ls cs) : Lined offset isOpen busy
      (p :: ps) ls cs
  | comment {offset : Nat} {isOpen isOpen' busy : Bool} {p : Piece} {ps : List Piece}
      {ls ls' : List Lexeme}
      {cs : List Comment} (hk : p.kind = .comment)
      (hl : LineEnds offset (isOpen && p.text.contains '\n') ls)
      (ho : isOpen = false → isOpen' = false)
      (hs : Lined (offset + byteLength p.text) isOpen' busy ps ls' cs) :
    Lined offset isOpen busy (p :: ps) (ls ++ ls')
    (⟨.atOffset offset, String.ofList p.text, !busy⟩ :: cs)
  | token {offset : Nat} {isOpen isOpen' busy : Bool} {p : Piece} {ps : List Piece} {t : Token}
      {ls : List Lexeme} {cs : List Comment} (hk : p.kind = .token t)
      (hs : Lined (offset + byteLength p.text) isOpen' true ps ls cs) :
    Lined offset isOpen busy (p :: ps) (lexemeAt offset t p.text :: ls) cs

theorem Lined.scans {offset : Nat} {isOpen busy : Bool} {ps : List Piece} {ls : List Lexeme}
    {cs : List Comment} (h : Lined offset isOpen busy ps ls cs) : Scans offset isOpen ps ls cs := by
  induction h with
  | nil hl => exact .nil hl
  | newline hk hl _ ih => exact .blank (.inl hk) hl (fun _ => rfl) ih
  | blank hk _ ih => exact .blank (.inr hk) (.inl rfl) id ih
  | comment hk hl ho _ ih =>
    exact .comment hk (hl.weaken fun h => (Bool.and_eq_true_iff.mp h).1) ho ih
  | token hk _ ih => exact .token hk ih

theorem lined_ofPieces (d : Dialect) (offset : Nat) (isOpen busy : Bool) (ps : List Piece) :
    Lined offset isOpen busy ps (ofPieces d offset isOpen busy ps).lexemes
      (ofPieces d offset isOpen busy ps).comments := by
  induction ps generalizing offset isOpen busy with
  | nil =>
    obtain ⟨ls, hls, heq⟩ := closeLine_lexemes isOpen offset ⟨[⟨.eof, .atOffset offset, ""⟩], []⟩
    rw [ofPieces, heq, closeLine_comments]
    exact .nil hls
  | cons p ps ih =>
    rw [ofPieces]
    split
    · rename_i hk
      obtain ⟨ls, hls, heq⟩ := closeLine_lexemes isOpen offset
        (ofPieces d (offset + byteLength p.text) false false ps)
      rw [heq, closeLine_comments]
      exact .newline hk hls (ih _ _ _)
    · rename_i hk
      exact .blank hk (ih _ _ _)
    · rename_i hk
      dsimp only
      -- a comment over several lines ends a statement as a line end does
      obtain ⟨ls, hls, heq⟩ := closeLine_lexemes (isOpen && p.text.contains '\n') offset
        { ofPieces d (offset + byteLength p.text)
          (isOpen && !(isOpen && p.text.contains '\n')) busy ps with comments :=
          ⟨.atOffset offset, String.ofList p.text, !busy⟩ ::
            (ofPieces d (offset + byteLength p.text)
              (isOpen && !(isOpen && p.text.contains '\n')) busy ps).comments }
      rw [heq, closeLine_comments]
      exact .comment hk hls (by rintro rfl; rfl) (ih _ _ _)
    · rename_i t hk
      exact .token hk (ih _ _ _)

theorem spelling_lexemeAt {offset : Nat} {t : Token} {text : List Char}
    (h : Piece.IsSpelling t text) : (lexemeAt offset t text).spelling.toList = text := by
  unfold Lexeme.spelling lexemeAt
  cases ht : t.carriesText with
  | true => simp
  | false => simp [h.eq_text ht]

theorem stop_lexemeAt {offset : Nat} {t : Token} {text : List Char} (h : Piece.IsSpelling t text) :
    (lexemeAt offset t text).stop = .atOffset (offset + byteLength text) := by
  rw [Lexeme.stop, utf8ByteSize_eq_byteLength, spelling_lexemeAt h]
  exact Pos.advance_atOffset _ _

namespace Scans

open Piece

variable {offset : Nat} {isOpen : Bool} {ps : List Piece} {ls : List Lexeme} {cs : List Comment}

theorem ended (h : Scans offset isOpen ps ls cs) (hps : AllSpelled ps) : Ended ls := by
  induction h with
  | nil hl => exact hl.ended rfl
  | blank _ hl _ _ ih | comment _ hl _ _ ih => exact hl.ended (ih hps.tail)
  | token hk _ ih => exact .cons (hps.head hk).ne_eof (ih hps.tail)

/-! ### Order -/

theorem le_pos (h : Scans offset isOpen ps ls cs) {l : Lexeme} (hl : l ∈ ls) :
    .atOffset offset ≤ l.pos := by
  induction h with
  | nil h =>
    rcases List.mem_append.mp hl with hl | hl
    · rw [h.eq_of_mem hl]
      exact Nat.le_refl _
    · rw [List.mem_singleton.mp hl]
      exact Nat.le_refl _
  | blank _ h _ _ ih | comment _ h _ _ ih =>
    rcases List.mem_append.mp hl with hl | hl
    · rw [h.eq_of_mem hl]
      exact Nat.le_refl _
    · exact Pos.le_of_atOffset_add_le (ih hl)
  | token _ _ ih =>
    rcases List.mem_cons.mp hl with rfl | hl
    · exact Nat.le_refl _
    · exact Pos.le_of_atOffset_add_le (ih hl)

theorem le_comment_pos (h : Scans offset isOpen ps ls cs) {c : Comment} (hc : c ∈ cs) :
    .atOffset offset ≤ c.pos := by
  induction h with
  | nil => cases hc
  | blank _ _ _ _ ih | token _ _ ih => exact Pos.le_of_atOffset_add_le (ih hc)
  | comment _ _ _ _ ih =>
    rcases List.mem_cons.mp hc with rfl | hc
    · exact Nat.le_refl _
    · exact Pos.le_of_atOffset_add_le (ih hc)

/-- Lexemes stand in order. -/
theorem pairwise (h : Scans offset isOpen ps ls cs) (hps : AllSpelled ps) :
    ls.Pairwise Lexeme.Before := by
  -- a semicolon that a line end adds stands before whatever follows
  have lineEnds {offset : Nat} {isOpen : Bool} {ls ls' : List Lexeme}
      (hl : LineEnds offset isOpen ls) (hls' : ls'.Pairwise Lexeme.Before)
      (hle : ∀ l ∈ ls', .atOffset offset ≤ l.pos) : (ls ++ ls').Pairwise Lexeme.Before := by
    rcases hl with rfl | ⟨-, rfl⟩
    · exact hls'
    · exact List.pairwise_cons.mpr ⟨fun m hm => ⟨hle m hm, fun hne => absurd rfl hne⟩, hls'⟩
  induction h with
  | nil hl =>
    refine lineEnds hl (List.pairwise_singleton _ _) (fun l hl => ?_)
    rw [List.mem_singleton.mp hl]
    exact Nat.le_refl _
  | blank _ hl _ hs ih | comment _ hl _ hs ih =>
    exact lineEnds hl (ih hps.tail) (fun l hl => Pos.le_of_atOffset_add_le (hs.le_pos hl))
  | token hk hs ih =>
    refine List.pairwise_cons.mpr
      ⟨fun m hm => ⟨Pos.le_of_atOffset_add_le (hs.le_pos hm), fun _ => ?_⟩,
      ih hps.tail⟩
    rw [stop_lexemeAt (hps.head hk)]
    exact hs.le_pos hm

/-- A lexeme stands behind all before it, unless it is the end of the text. -/
theorem pairwise_pos (h : Scans offset isOpen ps ls cs) (hps : ∀ p ∈ ps, p.text ≠ []) :
    ls.Pairwise fun l m => m.token ≠ .eof → l.pos < m.pos := by
  induction h with
  | nil hl =>
    rcases hl with rfl | ⟨-, rfl⟩
    · exact List.pairwise_singleton _ _
    · exact List.pairwise_pair.mpr fun heof => absurd rfl heof
  | blank _ hl _ hs ih | comment _ hl _ hs ih =>
    obtain ⟨hp, hps⟩ := List.forall_mem_cons.mp hps
    rcases hl with rfl | ⟨-, rfl⟩
    · exact ih hps
    · exact List.pairwise_cons.mpr ⟨fun m hm _ => Pos.atOffset_lt_of_le hp (hs.le_pos hm), ih hps⟩
  | token _ hs ih =>
    obtain ⟨hp, hps⟩ := List.forall_mem_cons.mp hps
    exact List.pairwise_cons.mpr ⟨fun m hm _ => Pos.atOffset_lt_of_le hp (hs.le_pos hm), ih hps⟩

/-- Tokens stand before the end of the text. -/
theorem pos_lt_end (h : Scans offset isOpen ps ls cs) (hps : ∀ p ∈ ps, p.text ≠ []) {l : Lexeme}
    (hl : l ∈ ls) (heof : l.token ≠ .eof) (hsemi : l.token ≠ .semicolon) :
    ∃ n, l.pos = .atOffset n ∧ n < offset + byteLength (texts ps) := by
  induction h with
  | nil h =>
    rcases List.mem_append.mp hl with hl | hl
    · exact absurd (congrArg Lexeme.token (h.eq_of_mem hl)) hsemi
    · exact absurd (congrArg Lexeme.token (List.mem_singleton.mp hl)) heof
  | blank _ h _ _ ih | comment _ h _ _ ih =>
    rcases List.mem_append.mp hl with hl | hl
    · exact absurd (congrArg Lexeme.token (h.eq_of_mem hl)) hsemi
    · obtain ⟨n, hn, hlt⟩ := ih (List.forall_mem_cons.mp hps).2 hl
      exact ⟨n, hn, by rw [texts_cons, byteLength_append]; omega⟩
  | token _ _ ih =>
    obtain ⟨hp, hps⟩ := List.forall_mem_cons.mp hps
    rcases List.mem_cons.mp hl with rfl | hl
    · have hwidth := byteLength_pos hp
      exact ⟨_, rfl, by rw [texts_cons, byteLength_append]; omega⟩
    · obtain ⟨n, hn, hlt⟩ := ih hps hl
      exact ⟨n, hn, by rw [texts_cons, byteLength_append]; omega⟩

/-- The last lexeme is the end of the text. -/
theorem getLast? (h : Scans offset isOpen ps ls cs) :
    ls.getLast? = some ⟨.eof, .atOffset (offset + byteLength (texts ps)), ""⟩ := by
  induction h with
  | nil => simp
  | blank _ _ _ _ ih | comment _ _ _ _ ih =>
    rw [List.getLast?_append, ih, texts_cons, byteLength_append, Nat.add_assoc]
    rfl
  | token _ _ ih =>
    rw [List.getLast?_cons, ih, texts_cons, byteLength_append, Nat.add_assoc]
    rfl

/-- No lexeme stands behind the end of the text. -/
theorem pos_le_end (h : Scans offset isOpen ps ls cs) (hps : AllSpelled ps) {l : Lexeme}
    (hl : l ∈ ls) :
    l.pos ≤ .atOffset (offset + byteLength (texts ps)) := by
  obtain ⟨ms, rfl⟩ := List.getLast?_eq_some_iff.mp h.getLast?
  rcases List.mem_append.mp hl with hl | hl
  · exact ((List.pairwise_append.mp (h.pairwise hps)).2.2 l hl _ (List.mem_singleton_self _)).1
  · rw [List.mem_singleton.mp hl]
    exact Nat.le_refl _

/-- Comments stand in order. -/
theorem pairwise_comments (h : Scans offset isOpen ps ls cs) :
    cs.Pairwise (fun c d => c.stop ≤ d.pos) := by
  induction h with
  | nil => exact .nil
  | blank _ _ _ _ ih | token _ _ ih => exact ih
  | comment _ _ _ hs ih =>
    refine List.pairwise_cons.mpr ⟨fun d hd => ?_, ih⟩
    simpa [Comment.stop] using hs.le_comment_pos hd

/-! ### Texts -/

/-- **Tokens stand where their lexemes say.** -/
theorem slice?_lexeme (h : Scans offset isOpen ps ls cs) (hps : AllSpelled ps) {src : Source}
    {a : List Char} (hsrc : src.text = a ++ texts ps) (ha : byteLength a = offset) {l : Lexeme}
    (hl : l ∈ ls) (heof : l.token ≠ .eof) (hsemi : l.token ≠ .semicolon) :
    src.slice? ⟨l.pos, l.stop⟩ = some l.spelling.toList := by
  induction h generalizing a with
  | nil h =>
    rcases List.mem_append.mp hl with hl | hl
    · exact absurd (congrArg Lexeme.token (h.eq_of_mem hl)) hsemi
    · exact absurd (congrArg Lexeme.token (List.mem_singleton.mp hl)) heof
  | blank _ h _ _ ih | comment _ h _ _ ih =>
    rcases List.mem_append.mp hl with hl | hl
    · exact absurd (congrArg Lexeme.token (h.eq_of_mem hl)) hsemi
    · exact ih hps.tail (a := a ++ _) (by rw [hsrc, texts_cons, List.append_assoc])
        (by simp [ha]) hl
  | token hk _ ih =>
    rcases List.mem_cons.mp hl with rfl | hl
    · rw [stop_lexemeAt (hps.head hk), spelling_lexemeAt (hps.head hk)]
      refine Source.slice?_eq_some_iff.mpr ⟨a, _, by rw [hsrc, texts_cons], ?_, ?_⟩
      · rw [ha]
        rfl
      · rw [ha]
    · exact ih hps.tail (a := a ++ _) (by rw [hsrc, texts_cons, List.append_assoc])
        (by simp [ha]) hl

/-- Comments stand where they say. -/
theorem slice?_comment (h : Scans offset isOpen ps ls cs) {src : Source} {a : List Char}
    (hsrc : src.text = a ++ texts ps) (ha : byteLength a = offset) {c : Comment} (hc : c ∈ cs) :
    src.slice? ⟨c.pos, c.stop⟩ = some c.text.toList := by
  induction h generalizing a with
  | nil => cases hc
  | blank _ _ _ _ ih | token _ _ ih =>
    exact ih (a := a ++ _) (by rw [hsrc, texts_cons, List.append_assoc]) (by simp [ha]) hc
  | comment _ _ _ _ ih =>
    rcases List.mem_cons.mp hc with rfl | hc
    · refine Source.slice?_eq_some_iff.mpr ⟨a, _, by rw [hsrc, texts_cons, String.toList_ofList],
        ?_, ?_⟩
      · rw [ha]
      · simp [Comment.stop, ha]
    · exact ih (a := a ++ _) (by rw [hsrc, texts_cons, List.append_assoc]) (by simp [ha]) hc

/-! ### Before the first token and behind the last -/

/-- The pieces before the first lexeme are no tokens. -/
theorem head {l : Lexeme} (h : Scans offset false ps (l :: ls) cs) (heof : l.token ≠ .eof) :
    ∃ ps₁ p ps₂, ps = ps₁ ++ p :: ps₂ ∧ (∀ q ∈ ps₁, ∀ t, q.kind ≠ .token t) ∧
      l.pos = .atOffset (offset + byteLength (texts ps₁)) := by
  generalize hls : l :: ls = ls' at h
  generalize ho : false = isOpen at h
  induction h with
  | nil hl =>
    subst ho
    rcases hl with rfl | ⟨h, -⟩
    · cases hls
      exact absurd rfl heof
    · cases h
  | @blank _ _ _ p _ _ _ _ hk hl ho' _ ih | @comment _ _ _ _ p _ _ _ _ hk hl ho' _ ih =>
    subst ho
    rcases hl with rfl | ⟨h, -⟩
    · obtain ⟨ps₁, q, ps₂, rfl, hps₁, hpos⟩ := ih hls (ho' rfl).symm
      refine ⟨p :: ps₁, q, ps₂, rfl, ?_, ?_⟩
      · intro q' hq' t ht
        rcases List.mem_cons.mp hq' with rfl | hq'
        · simp [ht] at hk
        · exact hps₁ q' hq' t ht
      · rw [hpos, texts_cons, byteLength_append, Nat.add_assoc]
    · cases h
  | @token _ _ _ p ps _ _ _ hk _ _ =>
    cases hls
    exact ⟨[], p, ps, rfl, fun q hq => absurd hq List.not_mem_nil, rfl⟩

/-- A token that no line end adds is one of the pieces. -/
theorem exists_piece_of_lexeme (h : Scans offset isOpen ps ls cs) {l : Lexeme} (hl : l ∈ ls)
    (hsemi : l.token ≠ .semicolon) (heof : l.token ≠ .eof) :
    ∃ p ∈ ps, ∃ n, p.kind = .token l.token ∧ l = lexemeAt n l.token p.text := by
  induction h with
  | nil h =>
    rw [List.mem_singleton.mp (h.mem_of_ne hsemi hl)] at heof
    exact absurd rfl heof
  | blank _ h _ _ ih | comment _ h _ _ ih =>
    obtain ⟨p, hp, n, hl⟩ := ih (h.mem_of_ne hsemi hl)
    exact ⟨p, List.mem_cons_of_mem _ hp, n, hl⟩
  | @token offset _ _ p _ _ _ _ hk _ ih =>
    rcases List.mem_cons.mp hl with rfl | hl
    · exact ⟨p, List.mem_cons_self, offset, hk, rfl⟩
    · obtain ⟨p, hp, n, hl⟩ := ih hl
      exact ⟨p, List.mem_cons_of_mem _ hp, n, hl⟩

theorem exists_piece_of_comment (h : Scans offset isOpen ps ls cs) {c : Comment} (hc : c ∈ cs) :
    ∃ ps₁ ps₂, ps = ps₁ ++ ps₂ ∧ c.pos = .atOffset (offset + byteLength (texts ps₁)) := by
  induction h with
  | nil => cases hc
  | @blank _ _ _ p _ _ _ _ _ _ _ _ ih | @token _ _ _ p _ _ _ _ _ _ ih =>
    obtain ⟨ps₁, ps₂, rfl, hpos⟩ := ih hc
    exact ⟨p :: ps₁, ps₂, rfl, by rw [hpos, texts_cons, byteLength_append, Nat.add_assoc]⟩
  | @comment _ _ _ _ p ps _ _ _ _ _ _ _ ih =>
    rcases List.mem_cons.mp hc with rfl | hc
    · exact ⟨[], p :: ps, rfl, rfl⟩
    · obtain ⟨ps₁, ps₂, rfl, hpos⟩ := ih hc
      exact ⟨p :: ps₁, ps₂, rfl, by rw [hpos, texts_cons, byteLength_append, Nat.add_assoc]⟩

/-- A comment stands before a token or behind it. -/
theorem comment_apart (h : Scans offset isOpen ps ls cs) (hps : ∀ p ∈ ps, p.text ≠ []) {l : Lexeme}
    (hl : l ∈ ls) (hsemi : l.token ≠ .semicolon) {c : Comment} (hc : c ∈ cs) :
    c.pos < l.pos ∧ c.stop ≤ l.pos ∨ l.pos < c.pos := by
  induction h with
  | nil => cases hc
  | blank _ hms _ _ ih => exact ih (List.forall_mem_cons.mp hps).2 (hms.mem_of_ne hsemi hl) hc
  | comment _ hms _ hs ih =>
    obtain ⟨hp, hps⟩ := List.forall_mem_cons.mp hps
    have hl := hms.mem_of_ne hsemi hl
    rcases List.mem_cons.mp hc with rfl | hc
    · exact .inl ⟨Pos.atOffset_lt_of_le hp (hs.le_pos hl), by
        simpa [Comment.stop] using hs.le_pos hl⟩
    · exact ih hps hl hc
  | token _ hs ih =>
    obtain ⟨hp, hps⟩ := List.forall_mem_cons.mp hps
    rcases List.mem_cons.mp hl with rfl | hl
    · exact .inr (Pos.atOffset_lt_of_le hp (hs.le_comment_pos hc))
    · exact ih hps hl hc

/-- The characters behind a place that no token or comment reaches are blanks and semicolons. -/
theorem blank_behind (h : Scans offset isOpen ps ls cs) (hps : AllSpelled ps) (hblank : AllBlank ps)
    {q : Pos} (hls : ∀ l ∈ ls, l.token ≠ .eof → l.token ≠ .semicolon → l.stop ≤ q)
    (hcs : ∀ c ∈ cs, c.stop ≤ q) {a b : List Char} (hab : texts ps = a ++ b)
    (hq : q ≤ .atOffset (offset + byteLength a)) : ∀ c ∈ b, c ∈ ';' :: blanks := by
  -- a piece that ends behind the place is a single character, and so begins behind it
  have step {offset : Nat} {p : Piece} {ps : List Piece} {a b : List Char}
      (rest : ∀ a' {b'}, texts ps = a' ++ b' →
        q ≤ .atOffset (offset + byteLength p.text + byteLength a') → ∀ c ∈ b', c ∈ ';' :: blanks)
      (hp : .atOffset (offset + byteLength p.text) ≤ q ∨ ∃ c ∈ ';' :: blanks, p.text = [c])
      (hab : texts (p :: ps) = a ++ b) (hq : q ≤ .atOffset (offset + byteLength a)) :
      ∀ c ∈ b, c ∈ ';' :: blanks := by
    rw [Pos.le_def] at hp hq
    simp only [Pos.atOffset] at hp hq
    rw [texts_cons] at hab
    rcases List.append_eq_append_iff.mp hab with ⟨a', rfl, hrest⟩ | ⟨m, hm, rfl⟩
    · refine rest a' hrest ?_
      rw [Pos.le_def]
      simpa [Pos.atOffset, Nat.add_assoc] using hq
    · rcases hp with hp | ⟨c, hc, hp⟩
      · have hnil : m = [] := by
          rw [← byteLength_eq_zero_iff]
          rw [hm, byteLength_append] at hp
          omega
        subst hnil
        refine rest [] rfl ?_
        rw [Pos.le_def, hm]
        simpa [Pos.atOffset] using hq
      · rw [hm] at hp
        have hrest := rest [] rfl (by
          rw [Pos.le_def, hm]
          simp only [Pos.atOffset, byteLength_append, byteLength_nil]
          omega)
        intro e he
        rcases List.mem_append.mp he with he | he
        · have : e ∈ a ++ m := List.mem_append_right _ he
          rw [hp] at this
          exact List.mem_singleton.mp this ▸ hc
        · exact hrest e he
  -- the first piece is before the place, or it is blank: what is left of it counts either way
  induction h generalizing a b with
  | nil =>
    intro c hc
    have : b = [] := (List.append_eq_nil_iff.mp hab.symm).2
    rw [this] at hc
    cases hc
  | blank hk _ _ _ ih =>
    refine step (fun _ _ h₁ h₂ => ih hps.tail hblank.tail
      (fun l hl => hls l (List.mem_append_right _ hl)) hcs h₁ h₂) (.inr ?_) hab hq
    obtain ⟨c, hc, heq⟩ := hblank _ List.mem_cons_self hk
    exact ⟨c, List.mem_cons_of_mem _ hc, heq⟩
  | comment _ _ _ _ ih =>
    refine step (fun _ _ h₁ h₂ => ih hps.tail hblank.tail
      (fun l hl => hls l (List.mem_append_right _ hl))
      (fun c hc => hcs c (List.mem_cons_of_mem _ hc)) h₁ h₂) (.inl ?_) hab hq
    simpa [Comment.stop] using hcs _ List.mem_cons_self
  | @token _ _ _ p _ t _ _ hk _ ih =>
    refine step (fun _ _ h₁ h₂ => ih hps.tail hblank.tail
      (fun l hl => hls l (List.mem_cons_of_mem _ hl)) hcs h₁ h₂) ?_ hab hq
    by_cases ht : t = .semicolon
    · exact .inr ⟨';', List.mem_cons_self, (hps.head hk).semicolon ht⟩
    · rw [← stop_lexemeAt (hps.head hk)]
      exact .inl (hls _ List.mem_cons_self (hps.head hk).ne_eof ht)

end Scans

theorem lined_of_ofText {d : Dialect} {cs : List Char} {s : Scan} (h : ofText d cs = .ok s) :
    ∃ ps, Piece.Splits cs ps ∧ Lined 0 false false ps s.lexemes s.comments := by
  unfold ofText at h
  cases hs : Piece.split 0 cs with
  | error e => rw [hs] at h; cases h
  | ok ps =>
    rw [hs] at h
    cases h
    exact ⟨ps, Piece.splits_of_split hs, lined_ofPieces d 0 false false ps⟩

theorem scans_of_ofText {d : Dialect} {cs : List Char} {s : Scan} (h : ofText d cs = .ok s) :
    ∃ ps, Piece.Splits cs ps ∧ Scans 0 false ps s.lexemes s.comments := by
  obtain ⟨ps, hsplits, hlined⟩ := lined_of_ofText h
  exact ⟨ps, hsplits, hlined.scans⟩

end Scan

end Graft
