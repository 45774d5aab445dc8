import Graft.Proofs.Token.Lossless

/-! # The semicolons that line ends stand for

Between two written tokens a scan has at most one semicolon that is not written: exactly if the
first token can end a statement and a line ends somewhere between the two, inside a comment or not.

The scan decides this piece by piece, with a flag that the first line end clears.  `Punctuated` is
the same reading token by token, where the text between two tokens is one **gap**: a piece that is
no token only makes the gap before the next token longer (`Punctuated.extend`), whichever kind of
piece it is.
-/

namespace Graft

/-- The tokens behind which a line end closes a statement. -/
def Token.closers (d : Dialect) : List Token :=
  [.ident, .int, .float, .imag, .char, .string, .kwBreak, .kwContinue, .kwFallthrough, .kwReturn,
    .inc, .dec, .rparen, .rbrack, .rbrace] ++ (if d = .pattern then [.ellipsis] else [])

theorem Token.endsStatement_iff {d : Dialect} {t : Token} :
    t.endsStatement d = true ↔ t ∈ Token.closers d := by
  cases d <;> cases t <;> decide

namespace Piece

theorem recognise_newline {c : Char} {cs : List Char} {n : Nat}
    (h : recognise c cs = .ok (.newline, n)) : c :: cs.take n = ['\n'] := by
  unfold recognise at h
  split at h
  · rename_i hc
    cases h
    rw [List.take_zero, eq_of_beq hc]
  split at h
  · cases h
  split at h
  · cases h
  split at h
  · split at h <;> cases h
  · cases hr : recogniseToken c cs with
    | error e => rw [hr] at h; cases h
    | ok x => rw [hr] at h; cases h

theorem recognise_blank {c : Char} {cs : List Char} {n : Nat}
    (h : recognise c cs = .ok (.blank, n)) : '\n' ∉ c :: cs.take n := by
  unfold recognise at h
  split at h
  · cases h
  rename_i hc
  split at h
  · cases h
    rw [List.take_zero, List.mem_singleton]
    intro hn
    exact hc (by rw [← hn]; rfl)
  split at h
  · cases h
  split at h
  · split at h <;> cases h
  · cases hr : recogniseToken c cs with
    | error e => rw [hr] at h; cases h
    | ok x => rw [hr] at h; cases h

/-- Whether lines end at the pieces that say so, and at no blank. -/
def EndLines (ps : List Piece) : Prop :=
  ∀ p ∈ ps, (p.kind = .newline → p.text = ['\n']) ∧ (p.kind = .blank → '\n' ∉ p.text)

theorem Splits.endLines {cs : List Char} {ps : List Piece} (h : Splits cs ps) : EndLines ps := by
  induction h with
  | nil => exact fun p hp => absurd hp List.not_mem_nil
  | @cons c cs kind n _ hr _ ih =>
    refine List.forall_mem_cons.mpr ⟨⟨fun hk => ?_, fun hk => ?_⟩, ih⟩
    · obtain rfl : kind = .newline := hk
      exact recognise_newline hr
    · obtain rfl : kind = .blank := hk
      exact recognise_blank hr

end Piece

namespace Scan

open Piece

/-- The lexemes of a text that begins at `offset`, token by token: a gap, the semicolons it stands
for, and the token behind it or the end of the text.  `isOpen` tells whether the text stands behind
a token that can end a statement. -/
inductive Punctuated (d : Dialect) : Nat → Bool → List Char → List Lexeme → Prop where
  | last {offset : Nat} {isOpen : Bool} {gap : List Char} {ls : List Lexeme} {e : Lexeme}
      (hl : ∀ l ∈ ls, l.isInserted = true) (hlen : ls.length = if isOpen then 1 else 0)
      (he : e.token = .eof) : Punctuated d offset isOpen gap (ls ++ [e])
  | token {offset : Nat} {isOpen : Bool} {gap text cs : List Char} {t : Token}
      {ls ls' : List Lexeme}
      (hl : ∀ l ∈ ls, l.isInserted = true)
      (hlen : ls.length = if isOpen && gap.contains '\n' then 1 else 0) (ht : IsSpelling t text)
      (hs : Punctuated d (offset + byteLength gap + byteLength text) (t.endsStatement d) cs ls') :
    Punctuated d offset isOpen (gap ++ (text ++ cs))
      (ls ++ lexemeAt (offset + byteLength gap) t text :: ls')

namespace Punctuated

variable {d : Dialect} {offset : Nat} {isOpen : Bool} {cs : List Char} {ls : List Lexeme}

/-- A text before the first token belongs to its gap, and a line that ends in it closes a
statement. -/
theorem extend {w : List Char}
    (h : Punctuated d (offset + byteLength w) (isOpen && !w.contains '\n') cs ls) :
    Punctuated d offset isOpen (w ++ cs)
      ((if isOpen && w.contains '\n' then [lineEnd offset] else []) ++ ls) := by
  have hends : ∀ l ∈ (if isOpen && w.contains '\n' then [lineEnd offset] else []),
      l.isInserted = true := by
    intro l hl
    split at hl
    · rw [List.mem_singleton.mp hl]
      rfl
    · cases hl
  generalize ho : (isOpen && !w.contains '\n') = isOpen', hn : offset + byteLength w = offset' at h
  cases h with
  | @last _ _ _ ls _ hl hlen he =>
    rw [← List.append_assoc]
    refine .last (List.forall_mem_append.mpr ⟨hends, hl⟩) ?_ he
    rw [List.length_append, hlen, ← ho]
    cases isOpen <;> cases w.contains '\n' <;> rfl
  | @token _ _ gap text cs t ls ls' hl hlen ht hs =>
    subst hn
    rw [← List.append_assoc w, ← List.append_assoc _ ls, Nat.add_assoc, ← byteLength_append]
    refine .token (List.forall_mem_append.mpr ⟨hends, hl⟩) ?_ ht ?_
    · rw [List.length_append, hlen, ← ho]
      simp only [List.contains_eq_mem, List.mem_append]
      cases isOpen <;> by_cases hw : '\n' ∈ w <;> by_cases hg : '\n' ∈ gap <;> simp [hw, hg]
    · rwa [byteLength_append, ← Nat.add_assoc offset]

end Punctuated

theorem closeLine_lexemes_eq (isOpen : Bool) (offset : Nat) (s : Scan) :
    (closeLine isOpen offset s).lexemes = (if isOpen then [lineEnd offset] else []) ++
      s.lexemes := by
  cases isOpen <;> rfl

theorem punctuated_ofPieces (d : Dialect) (offset : Nat) (isOpen busy : Bool) {ps : List Piece}
    (hps : AllSpelled ps) (hlines : EndLines ps) :
    Punctuated d offset isOpen (texts ps) (ofPieces d offset isOpen busy ps).lexemes := by
  induction ps generalizing offset isOpen busy with
  | nil =>
    rw [ofPieces, closeLine_lexemes_eq]
    refine .last ?_ ?_ rfl
    · cases isOpen <;> simp [lineEnd, Lexeme.isInserted]
    · cases isOpen <;> rfl
  | cons p ps ih =>
    obtain ⟨⟨hnewline, hblank⟩, hlines⟩ := List.forall_mem_cons.mp hlines
    have ih := fun offset isOpen busy => ih offset isOpen busy hps.tail hlines
    rw [ofPieces, texts_cons]
    split
    · rename_i hk
      have hend : p.text.contains '\n' = true := by rw [hnewline hk]; rfl
      rw [closeLine_lexemes_eq]
      have h := (ih (offset + byteLength p.text) (isOpen && !p.text.contains '\n') false).extend
      rwa [hend, Bool.and_true, Bool.not_true, Bool.and_false] at h
    · rename_i hk
      have hend : p.text.contains '\n' = false := by simpa using hblank hk
      have h := (ih (offset + byteLength p.text) (isOpen && !p.text.contains '\n') busy).extend
      rwa [hend, Bool.and_false, Bool.not_false, Bool.and_true] at h
    · dsimp only
      rw [closeLine_lexemes_eq]
      have h := (ih (offset + byteLength p.text) (isOpen && !p.text.contains '\n') busy).extend
      have hopen : (isOpen && !(isOpen && p.text.contains '\n')) =
          (isOpen && !p.text.contains '\n') := by
        cases isOpen <;> rfl
      rwa [hopen]
    · rename_i t hk
      -- the gap before the token is empty
      exact @Punctuated.token d offset isOpen [] p.text (texts ps) t [] _ (List.forall_mem_nil _)
        (by simp)
        (hps.head hk) (ih _ _ _)

/-- The parts of a list before its first element with a property, where it is cut at an element with
the property: the cut is at that first element, or behind it. -/
theorem eq_or_exists_of_append_cons {α : Type} {p : α → Bool} {as as' bs bs' : List α} {x y : α}
    (h : as ++ x :: bs = as' ++ y :: bs') (has : ∀ a ∈ as, p a = false) (hy : p y = true) :
    as' = as ∧ y = x ∧ bs' = bs ∨ ∃ ds, as' = as ++ x :: ds ∧ bs = ds ++ y :: bs' := by
  rcases List.append_eq_append_iff.mp h with ⟨ds, rfl, heq⟩ | ⟨ds, rfl, heq⟩
  · cases ds with
    | nil =>
      obtain ⟨rfl, rfl⟩ := List.cons.inj heq
      exact .inl ⟨List.append_nil _, rfl, rfl⟩
    | cons z ds =>
      obtain ⟨rfl, rfl⟩ := List.cons.inj heq
      exact .inr ⟨ds, rfl, rfl⟩
  · cases ds with
    | nil =>
      obtain ⟨rfl, rfl⟩ := List.cons.inj heq
      exact .inl ⟨(List.append_nil _).symm, rfl, rfl⟩
    | cons z ds =>
      obtain ⟨rfl, -⟩ := List.cons.inj heq
      have hz := has y (List.mem_append_right _ List.mem_cons_self)
      rw [hy] at hz
      cases hz

end Scan

theorem Lexeme.isWritten_of_isInserted {l : Lexeme} (h : l.isInserted = true) :
    l.isWritten = false := by
  rw [isWritten, h, Bool.not_true, Bool.and_false]

theorem Lexeme.isWritten_of_eof {l : Lexeme} (h : l.token = .eof) : l.isWritten = false := by
  rw [isWritten, h]
  rfl

theorem Lexeme.token_of_isInserted {l : Lexeme} (h : l.isInserted = true) :
    l.token = .semicolon := by
  simp only [isInserted, Bool.and_eq_true, beq_iff_eq] at h
  exact h.1

/-- Behind the last token nothing is written. -/
theorem Lexeme.isWritten_of_mem_last {ls : List Lexeme} {e l : Lexeme}
    (hls : ∀ l ∈ ls, l.isInserted = true) (he : e.token = .eof) (hl : l ∈ ls ++ [e]) :
    l.isWritten = false := by
  rcases List.mem_append.mp hl with hl | hl
  · exact isWritten_of_isInserted (hls l hl)
  · rw [List.mem_singleton.mp hl]
    exact isWritten_of_eof he

namespace Scan.Punctuated

variable {d : Dialect} {offset : Nat} {isOpen : Bool} {cs : List Char} {ls : List Lexeme}

/-- What stands before the first written token. -/
theorem before_token (h : Punctuated d offset isOpen cs ls) {m b : List Lexeme} {t : Lexeme}
    (hls : ls = m ++ t :: b) (hm : ∀ l ∈ m, l.isWritten = false) (ht : t.isWritten = true) :
    ∃ gap rest, cs = gap ++ rest ∧ t.pos = .atOffset (offset + byteLength gap) ∧
      (∀ l ∈ m, l.isInserted = true) ∧
      m.length = if isOpen && gap.contains '\n' then 1 else 0 := by
  cases h with
  | last hl _ he =>
    rw [Lexeme.isWritten_of_mem_last hl he (by rw [hls]; simp)] at ht
    cases ht
  | @token _ _ gap text cs t' ls ls' hl hlen hspell _ =>
    rcases eq_or_exists_of_append_cons hls (fun l hl' => Lexeme.isWritten_of_isInserted (hl l hl'))
      ht
      with ⟨rfl, rfl, -⟩ | ⟨ds, rfl, -⟩
    · exact ⟨gap, text ++ cs, rfl, rfl, hl, hlen⟩
    · have hfirst := hm _ (List.mem_append_right _ List.mem_cons_self)
      rw [isWritten_lexemeAt hspell] at hfirst
      cases hfirst

/-- What stands before the end of a text without a written token. -/
theorem before_end (h : Punctuated d offset isOpen cs ls) {m b : List Lexeme} {e : Lexeme}
    (hls : ls = m ++ e :: b) (hm : ∀ l ∈ m, l.isWritten = false) (he : e.token = .eof) :
    (∀ l ∈ m, l.isInserted = true) ∧ m.length = if isOpen then 1 else 0 := by
  have noEof {ls : List Lexeme} (hl : ∀ l ∈ ls, l.isInserted = true) :
      ∀ l ∈ ls, (l.token == .eof) = false := by
    intro l hmem
    rw [Lexeme.token_of_isInserted (hl l hmem)]
    rfl
  cases h with
  | last hl hlen _ =>
    rcases eq_or_exists_of_append_cons hls (noEof hl) (by rw [he]; rfl) with ⟨rfl, -,
      -⟩ | ⟨ds, -, hds⟩
    · exact ⟨hl, hlen⟩
    · simp at hds
  | @token _ _ gap _ _ _ _ _ hl hlen hspell _ =>
    have hfirst := @isWritten_lexemeAt (offset + byteLength gap) _ _ hspell
    rcases eq_or_exists_of_append_cons hls (noEof hl) (by rw [he]; rfl) with ⟨-, rfl,
      -⟩ | ⟨ds, rfl, -⟩
    · exact absurd he hspell.ne_eof
    · rw [hm _ (List.mem_append_right _ List.mem_cons_self)] at hfirst
      cases hfirst

/-- Behind a written token the scan goes on at its end. -/
theorem behind (h : Punctuated d offset isOpen cs ls) {a r : List Lexeme} {t : Lexeme}
    (hls : ls = a ++ t :: r) (ht : t.isWritten = true) :
    ∃ front cs', cs = front ++ cs' ∧ t.stop = .atOffset (offset + byteLength front) ∧
      Punctuated d (offset + byteLength front) (t.token.endsStatement d) cs' r := by
  induction h generalizing a with
  | last hl _ he =>
    rw [Lexeme.isWritten_of_mem_last hl he (by rw [hls]; simp)] at ht
    cases ht
  | @token offset _ gap text cs t' ls ls' hl _ hspell hs ih =>
    rcases eq_or_exists_of_append_cons hls (fun l hl' => Lexeme.isWritten_of_isInserted (hl l hl'))
      ht
      with ⟨-, rfl, rfl⟩ | ⟨ds, -, rfl⟩
    · refine ⟨gap ++ text, cs, (List.append_assoc _ _ _).symm, ?_, ?_⟩
      · rw [stop_lexemeAt hspell, byteLength_append, Nat.add_assoc]
      · rw [byteLength_append, ← Nat.add_assoc]
        exact hs
    · obtain ⟨front, cs', rfl, hstop, hrest⟩ := ih rfl
      refine ⟨gap ++ (text ++ front), cs', by simp, ?_, ?_⟩
      · rw [hstop]
        simp [Nat.add_assoc]
      · simpa [Nat.add_assoc] using hrest

end Scan.Punctuated

/-- Whether the lexemes of a text follow the rule of semicolons: what a scan inserts between two
written tokens next to each other, behind the last of them, and before the first. -/
structure FollowsSemicolonRule (d : Dialect) (src : Source) (ls : List Lexeme) : Prop where
  between : ∀ a t₁ m t₂ b, ls = a ++ t₁ :: (m ++ t₂ :: b) → t₁.isWritten = true →
    t₂.isWritten = true →
    (∀ l ∈ m, l.isWritten = false) →
    ∃ gap, src.slice? ⟨t₁.stop, t₂.pos⟩ = some gap ∧ (∀ l ∈ m, l.isInserted = true) ∧
      m.length = if t₁.token ∈ Token.closers d ∧ '\n' ∈ gap then 1 else 0
  before_end : ∀ a t m e b, ls = a ++ t :: (m ++ e :: b) → t.isWritten = true → e.token = .eof →
    (∀ l ∈ m, l.isWritten = false) →
    (∀ l ∈ m, l.isInserted = true) ∧ m.length = if t.token ∈ Token.closers d then 1 else 0
  before_first : ∀ m t b, ls = m ++ t :: b → t.isWritten = true ∨ t.token = .eof →
    (∀ l ∈ m, l.isWritten = false) → m = []

/-- **Semicolons are inserted as the rule says**: one between a token that can end a statement and
the next token where a line ends between them, one at the end of a text whose last token can end a
statement, and no other. -/
theorem Scan.ofText_semicolons (d : Dialect) (cs : List Char) (s : Scan)
    (h : Scan.ofText d cs = .ok s) : FollowsSemicolonRule d (Source.ofText cs) s.lexemes := by
  obtain ⟨ps, hs, rfl⟩ : ∃ ps, Piece.split 0 cs = .ok ps ∧
      Scan.ofPieces d 0 false false ps = s := by
    unfold Scan.ofText at h
    cases hs : Piece.split 0 cs with
    | error e => rw [hs] at h; cases h
    | ok ps =>
      rw [hs] at h
      exact ⟨ps, rfl, Except.ok.inj h⟩
  have hps := Piece.splits_of_split hs
  have hp := Scan.punctuated_ofPieces d 0 false false hps.allSpelled hps.endLines
  rw [hps.texts_eq] at hp
  refine ⟨?_, ?_, ?_⟩
  · intro a t₁ m t₂ b hls ht₁ ht₂ hm
    obtain ⟨front, rest, hcs, hstop, hrest⟩ := hp.behind hls ht₁
    obtain ⟨gap, rest', rfl, hpos, hins, hlen⟩ := hrest.before_token rfl hm ht₂
    refine ⟨gap, ?_, hins, ?_⟩
    · rw [hstop, hpos, Nat.zero_add]
      exact Source.slice?_eq_some_iff.mpr ⟨front, rest', hcs, rfl, rfl⟩
    · rw [hlen]
      simp only [Bool.and_eq_true, Token.endsStatement_iff, List.contains_eq_mem, decide_eq_true_eq]
  · intro a t m e b hls ht he hm
    obtain ⟨front, rest, -, -, hrest⟩ := hp.behind hls ht
    obtain ⟨hins, hlen⟩ := hrest.before_end rfl hm he
    refine ⟨hins, ?_⟩
    rw [hlen]
    simp only [Token.endsStatement_iff]
  · rintro m t b hls (ht | ht) hm
    · obtain ⟨gap, rest, -, -, -, hlen⟩ := hp.before_token hls hm ht
      exact List.eq_nil_of_length_eq_zero hlen
    · exact List.eq_nil_of_length_eq_zero (hp.before_end hls hm ht).2

/-- Line ends in a comment, behind a comment and on empty lines stand for one semicolon together;
none stands behind an operator, and one behind the wildcard at the end of a pattern. -/
theorem Scan.ofText_semicolons_once :
    ∃ s, Scan.ofText .pattern "\nx /* a\nb */ // c\n\ny +\n...".toList = .ok s ∧
      FollowsSemicolonRule .pattern
      (Source.ofText "\nx /* a\nb */ // c\n\ny +\n...".toList) s.lexemes ∧
      s.lexemes.countP Lexeme.isInserted = 2 := by
  obtain ⟨s, hs⟩ := exists_of_isOk (show (Scan.ofText .pattern
    "\nx /* a\nb */ // c\n\ny +\n...".toList).isOk = true by decide +kernel)
  have hcount : ∀ s, Scan.ofText .pattern "\nx /* a\nb */ // c\n\ny +\n...".toList = .ok s →
      s.lexemes.countP Lexeme.isInserted = 2 := by decide +kernel
  exact ⟨s, hs, Scan.ofText_semicolons _ _ _ hs, hcount s hs⟩

end Graft
