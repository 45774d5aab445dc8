import Graft.Proofs.Result
import Graft.Proofs.Token.Scan

/-! # A scan accounts for its text

What a scan records of a text are its written tokens and its comments; the semicolons that line ends
stand for and the end of the text are no part of it.  In the order of the text these are its
**stretches**, and `Tiled` says how they cover it: a text is blanks and stretches, one behind the
other.

From this relation everything else is an induction: stretches stand apart and in order, each holds
the characters that are recorded for it, and a byte that none of them covers is blank
(`ofText_lossless`).
-/

namespace Graft

/-- Whether a lexeme is a semicolon that a line end stands for. -/
def Lexeme.isInserted (l : Lexeme) : Bool := l.token == .semicolon && l.text == "\n"

/-- Whether a lexeme stands for characters of the text: not for the end of a line or of the text. -/
def Lexeme.isWritten (l : Lexeme) : Bool := l.token != .eof && !l.isInserted

/-- A stretch of a text that a scan records. -/
inductive Stretch where
  | token (l : Lexeme)
  | comment (c : Comment)

namespace Stretch

def lexeme? : Stretch → Option Lexeme
  | token l => some l
  | comment _ => none

def comment? : Stretch → Option Comment
  | token _ => none
  | comment c => some c

def pos : Stretch → Pos
  | token l => l.pos
  | comment c => c.pos

/-- The recorded characters: those of the lexeme, or the spelling of its token where it has none. -/
def text : Stretch → String
  | token l => if l.text = "" then l.token.text else l.text
  | comment c => c.text

/-- Where a stretch ends. -/
def stop (m : Stretch) : Pos := m.pos.advance m.text.utf8ByteSize

theorem stop_eq {m : Stretch} {offset : Nat} {w : List Char} (hpos : m.pos = .atOffset offset)
    (htext : m.text.toList = w) : m.stop = .atOffset (offset + byteLength w) := by
  rw [stop, hpos, utf8ByteSize_eq_byteLength, htext]
  exact Pos.advance_atOffset _ _

end Stretch

/-- The stretches of a text that begins at `offset`, with nothing but blanks between them. -/
inductive Tiled : Nat → List Char → List Stretch → Prop where
  | nil {offset : Nat} : Tiled offset [] []
  | blank {offset : Nat} {c : Char} {cs : List Char} {ms : List Stretch} (hc : c ∈ Piece.blanks)
      (hs : Tiled (offset + c.utf8Size) cs ms) : Tiled offset (c :: cs) ms
  | stretch {offset : Nat} {m : Stretch} {w cs : List Char} {ms : List Stretch}
      (hpos : m.pos = .atOffset offset) (htext : m.text.toList = w) (hne : w ≠ [])
      (hs : Tiled (offset + byteLength w) cs ms) : Tiled offset (w ++ cs) (m :: ms)

namespace Tiled

variable {offset : Nat} {cs : List Char} {ms : List Stretch}

theorem le_pos (h : Tiled offset cs ms) {m : Stretch} (hm : m ∈ ms) : .atOffset offset ≤ m.pos := by
  induction h with
  | nil => cases hm
  | blank _ _ ih => exact Pos.le_of_atOffset_add_le (ih hm)
  | stretch hpos _ _ _ ih =>
    rcases List.mem_cons.mp hm with rfl | hm
    · rw [hpos]
      exact Nat.le_refl _
    · exact Pos.le_of_atOffset_add_le (ih hm)

/-- Stretches stand in order and apart. -/
theorem pairwise (h : Tiled offset cs ms) : ms.Pairwise fun m n => m.stop ≤ n.pos := by
  induction h with
  | nil => exact .nil
  | blank _ _ ih => exact ih
  | stretch hpos htext _ hs ih =>
    refine List.pairwise_cons.mpr ⟨fun n hn => ?_, ih⟩
    rw [Stretch.stop_eq hpos htext]
    exact hs.le_pos hn

theorem pos_lt_stop (h : Tiled offset cs ms) {m : Stretch} (hm : m ∈ ms) : m.pos < m.stop := by
  induction h with
  | nil => cases hm
  | blank _ _ ih => exact ih hm
  | stretch hpos htext hne _ ih =>
    rcases List.mem_cons.mp hm with rfl | hm
    · have hwidth := byteLength_pos hne
      rw [Stretch.stop_eq hpos htext, hpos, Pos.lt_def]
      simp only [Pos.atOffset]
      omega
    · exact ih hm

/-- A stretch stands in the text with the characters recorded for it. -/
theorem slice? (h : Tiled offset cs ms) {src : Source} {a : List Char} (hsrc : src.text = a ++ cs)
    (ha : byteLength a = offset) {m : Stretch} (hm : m ∈ ms) :
    src.slice? ⟨m.pos, m.stop⟩ = some m.text.toList := by
  induction h generalizing a with
  | nil => cases hm
  | @blank _ c _ _ _ _ ih => exact ih (a := a ++ [c]) (by simp [hsrc]) (by simp [ha]) hm
  | @stretch _ _ w _ _ hpos htext _ _ ih =>
    rcases List.mem_cons.mp hm with rfl | hm
    · rw [Stretch.stop_eq hpos htext, hpos, htext, ← ha]
      exact Source.slice?_eq_some_iff.mpr ⟨a, _, hsrc, rfl, rfl⟩
    · exact ih (a := a ++ w) (by simp [hsrc]) (by simp [ha]) hm

/-- A byte that belongs to no stretch is one of a blank. -/
theorem mem_blanks (h : Tiled offset cs ms) {a b : List Char} {c : Char} {n : Nat}
    (hcs : cs = a ++ c :: b) (hle : offset + byteLength a ≤ n)
    (hlt : n < offset + byteLength a + c.utf8Size)
    (hout : ∀ m ∈ ms, ¬(m.pos ≤ .atOffset n ∧ .atOffset n < m.stop)) : c ∈ Piece.blanks := by
  induction h generalizing a with
  | nil => simp at hcs
  | @blank offset d _ _ hd _ ih =>
    cases a with
    | nil =>
      obtain ⟨rfl, -⟩ := List.cons.inj hcs
      exact hd
    | cons d' a =>
      obtain ⟨rfl, hrest⟩ := List.cons.inj hcs
      simp only [byteLength_cons] at hle hlt
      exact ih hrest (by omega) (by omega) hout
  | stretch hpos htext _ _ ih =>
    obtain ⟨hm, hms⟩ := List.forall_mem_cons.mp hout
    rcases List.append_eq_append_iff.mp hcs with ⟨a', rfl, hrest⟩ | ⟨v, hv, hrest⟩
    · rw [byteLength_append] at hle hlt
      exact ih hrest (by omega) (by omega) hms
    · cases v with
      | nil =>
        -- the stretch ends right before the character
        rw [List.append_nil] at hv
        subst hv
        exact ih (a := []) hrest.symm (by simpa using hle) (by simpa using hlt) hms
      | cons e v =>
        obtain ⟨rfl, -⟩ := List.cons.inj hrest
        -- the character is one of the stretch, which covers all its bytes
        rw [Stretch.stop_eq hpos htext, hpos, hv, Pos.le_def, Pos.lt_def] at hm
        simp only [Pos.atOffset, byteLength_append, byteLength_cons] at hm
        omega

end Tiled

namespace Scan

open Piece

theorem isWritten_lexemeAt {offset : Nat} {t : Token} {text : List Char} (h : IsSpelling t text) :
    (lexemeAt offset t text).isWritten = true := by
  have heof := h.ne_eof
  by_cases hs : t = .semicolon
  · have htext := h.semicolon hs
    subst hs htext
    rfl
  · simp [Lexeme.isWritten, Lexeme.isInserted, lexemeAt, heof, hs]

theorem text_lexemeAt {offset : Nat} {t : Token} {text : List Char} (h : IsSpelling t text)
    (hne : text ≠ []) : (Stretch.token (lexemeAt offset t text)).text = String.ofList text := by
  by_cases ht : t.carriesText = true
  · have : String.ofList text ≠ "" := by simpa using hne
    simp [Stretch.text, lexemeAt, ht, this]
  · rw [Bool.not_eq_true] at ht
    simp [Stretch.text, lexemeAt, ht, h.eq_text ht]

theorem LineEnds.filter_isWritten {offset : Nat} {isOpen : Bool} {ls : List Lexeme}
    (h : LineEnds offset isOpen ls) : ls.filter Lexeme.isWritten = [] := by
  rcases h with rfl | ⟨-, rfl⟩
  · rfl
  · rfl

namespace Scans

variable {offset : Nat} {isOpen : Bool} {ps : List Piece} {ls : List Lexeme} {cs : List Comment}

/-- The written tokens and the comments of a scan are the stretches of its text. -/
theorem exists_stretches (h : Scans offset isOpen ps ls cs) (hps : AllSpelled ps)
    (hblank : AllBlank ps) (hne : ∀ p ∈ ps, p.text ≠ []) :
    ∃ ms, ms.filterMap Stretch.lexeme? = ls.filter Lexeme.isWritten ∧
      ms.filterMap Stretch.comment? = cs ∧
      Tiled offset (texts ps) ms := by
  induction h with
  | nil hl => exact ⟨[], by simp [hl.filter_isWritten, Lexeme.isWritten], rfl, .nil⟩
  | blank hk hl _ _ ih =>
    obtain ⟨ms, hlex, hcom, hms⟩ := ih hps.tail hblank.tail (List.forall_mem_cons.mp hne).2
    obtain ⟨c, hc, htext⟩ := hblank _ List.mem_cons_self hk
    refine ⟨ms, by rw [List.filter_append, hl.filter_isWritten, hlex, List.nil_append], hcom, ?_⟩
    rw [htext] at hms
    rw [texts_cons, htext]
    exact .blank hc (by simpa using hms)
  | @comment offset _ _ ownLine p _ _ _ _ _ hl _ _ ih =>
    obtain ⟨hp, hne⟩ := List.forall_mem_cons.mp hne
    obtain ⟨ms, hlex, hcom, hms⟩ := ih hps.tail hblank.tail hne
    refine ⟨.comment ⟨.atOffset offset, String.ofList p.text, ownLine⟩ :: ms, ?_, ?_, ?_⟩
    · rw [List.filter_append, hl.filter_isWritten, List.nil_append, ← hlex]
      rfl
    · rw [← hcom]
      rfl
    · exact .stretch rfl String.toList_ofList hp hms
  | @token offset _ _ p _ t _ _ hk _ ih =>
    obtain ⟨hp, hne⟩ := List.forall_mem_cons.mp hne
    obtain ⟨ms, hlex, hcom, hms⟩ := ih hps.tail hblank.tail hne
    refine ⟨.token (lexemeAt offset t p.text) :: ms, ?_, hcom, ?_⟩
    · rw [List.filter_cons_of_pos (isWritten_lexemeAt (hps.head hk)), ← hlex]
      rfl
    · refine .stretch rfl ?_ hp hms
      rw [text_lexemeAt (hps.head hk) hp, String.toList_ofList]

end Scans

end Scan

/-- Whether stretches account for a text: they stand in order and apart, each holds what is recorded
for it and ends between characters, and the bytes outside them are blank. -/
structure Accounts (cs : List Char) (ms : List Stretch) : Prop where
  apart : ms.Pairwise fun m n => m.stop ≤ n.pos
  nonempty : ∀ m ∈ ms, m.pos < m.stop
  slice : ∀ m ∈ ms, (Source.ofText cs).slice? ⟨m.pos, m.stop⟩ = some m.text.toList
  isCut : ∀ m ∈ ms, IsCut cs m.pos ∧ IsCut cs m.stop
  blank : ∀ a c b, cs = a ++ c :: b → ∀ n, byteLength a ≤ n → n < byteLength a + c.utf8Size →
    (∀ m ∈ ms, ¬(m.pos ≤ .atOffset n ∧ .atOffset n < m.stop)) → c ∈ [' ', '\t', '\r', '\n']

theorem Tiled.accounts {cs : List Char} {ms : List Stretch} (h : Tiled 0 cs ms) :
    Accounts cs ms := by
  have hslice : ∀ m ∈ ms, (Source.ofText cs).slice? ⟨m.pos, m.stop⟩ = some m.text.toList :=
    fun m hm => h.slice? (a := []) rfl rfl hm
  refine ⟨h.pairwise, fun m => h.pos_lt_stop, hslice,
    fun m hm => Source.isCut_of_slice? (hslice m hm), ?_⟩
  intro a c b hcs n hle hlt hout
  have hc := h.mem_blanks hcs (by omega) (by omega) hout
  simp only [Piece.blanks, List.mem_cons, List.not_mem_nil, or_false] at hc
  rcases hc with rfl | rfl | rfl | rfl <;> simp

/-- **A scan loses nothing of its text.**  Its written tokens and its comments, each in their order,
are the stretches that account for the text, and its last lexeme is the end of the text. -/
theorem Scan.ofText_lossless (d : Dialect) (cs : List Char) (s : Scan)
    (h : Scan.ofText d cs = .ok s) :
    (∃ ms : List Stretch, ms.filterMap Stretch.lexeme? = s.lexemes.filter Lexeme.isWritten ∧
      ms.filterMap Stretch.comment? = s.comments ∧ Accounts cs ms) ∧
    s.lexemes.getLast? = some ⟨.eof, .atOffset (byteLength cs), ""⟩ := by
  obtain ⟨ps, hps, hs⟩ := scans_of_ofText h
  constructor
  · obtain ⟨ms, hlex, hcom, hms⟩ := hs.exists_stretches hps.allSpelled hps.allBlank fun p hp =>
      hps.text_ne_nil hp
    rw [hps.texts_eq] at hms
    exact ⟨ms, hlex, hcom, hms.accounts⟩
  · rw [hs.getLast?, hps.texts_eq, Nat.zero_add]

/-- A text with an escape before a character of two bytes, a number that ends in a point, comments
of both kinds and a line end that stands for a semicolon. -/
theorem Scan.ofText_lossless_escape :
    ∃ s, Scan.ofText .pattern "f(\"\\é\", 1.)/* é\n */\n... // end".toList = .ok s ∧
      ∃ ms : List Stretch, ms.filterMap Stretch.lexeme? = s.lexemes.filter Lexeme.isWritten ∧
        ms.filterMap Stretch.comment? = s.comments ∧
        Accounts "f(\"\\é\", 1.)/* é\n */\n... // end".toList ms := by
  obtain ⟨s, hs⟩ := exists_of_isOk (show (Scan.ofText .pattern
    "f(\"\\é\", 1.)/* é\n */\n... // end".toList).isOk = true by decide +kernel)
  exact ⟨s, hs, (Scan.ofText_lossless _ _ _ hs).1⟩

/-- The places of a scan lie in its text, so they fit if that is short enough. -/
theorem Scan.ofText_fits {d : Dialect} {cs : List Char} {s : Scan}
    (hcs : byteLength cs < UInt32.size - 1) (h : Scan.ofText d cs = .ok s) :
    (∀ l ∈ s.lexemes, l.pos.Fits) ∧ ∀ c ∈ s.comments, c.pos.Fits ∧ c.stop.Fits := by
  obtain ⟨ps, hps, hs⟩ := scans_of_ofText h
  refine ⟨fun l hl => Pos.fits_of_le hcs ?_, fun c hc => ?_⟩
  · rw [← hps.texts_eq, ← Nat.zero_add (byteLength _)]
    exact hs.pos_le_end hps.allSpelled hl
  · have hslice : (Source.ofText cs).slice? ⟨c.pos, c.stop⟩ = some c.text.toList :=
      hs.slice?_comment (a := []) hps.texts_eq.symm rfl hc
    have hcuts := Source.isCut_of_slice? hslice
    exact ⟨Pos.fits_of_le hcs hcuts.1.le, Pos.fits_of_le hcs hcuts.2.le⟩

end Graft
