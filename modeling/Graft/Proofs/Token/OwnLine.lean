import Graft.Proofs.Text.Lines
import Graft.Proofs.Token.Semicolons

/-! # Comments that stand alone on their lines

A scan marks a comment as standing alone if no token has come since the last newline outside of
comments.  So between a comment that stands alone and a later one that does not there is a token
(`Scan.Lined.between`), and between a token and a later comment that stands alone a line ends
(`Scan.Lined.separate`).
-/

namespace Graft

theorem LineTable.exists_start_of_mem {a : List Char} (h : '\n' ∈ a) (offset : Nat) :
    ∃ m ∈ startsBehindNewlines offset a, offset < m ∧ m ≤ offset + byteLength a := by
  induction a generalizing offset with
  | nil => cases h
  | cons c a ih =>
    have hsize := c.utf8Size_pos
    rw [startsBehindNewlines, byteLength_cons]
    by_cases hc : c = '\n'
    · rw [if_pos hc]
      exact ⟨_, List.mem_cons_self, by omega, by omega⟩
    · obtain ⟨m, hm, hlt, hle⟩ := ih ((List.mem_cons.mp h).resolve_left (Ne.symm hc))
        (offset + c.utf8Size)
      rw [if_neg hc]
      exact ⟨m, hm, by omega, by omega⟩

namespace Scan.Lined

open LineTable Piece

variable {offset : Nat} {isOpen busy : Bool} {ps : List Piece} {ls : List Lexeme}
  {cs : List Comment}

/-- Comments are not empty. -/
theorem pos_lt_stop (h : Lined offset isOpen busy ps ls cs)
    (hps : ∀ p ∈ ps, p.text ≠ []) {c : Comment} (hc : c ∈ cs) : c.pos < c.stop := by
  induction h with
  | nil => cases hc
  | newline _ _ _ ih | blank _ _ ih | token _ _ ih => exact ih (List.forall_mem_cons.mp hps).2 hc
  | comment _ _ _ _ ih =>
    obtain ⟨hp, hps⟩ := List.forall_mem_cons.mp hps
    rcases List.mem_cons.mp hc with rfl | hc
    · refine Pos.atOffset_lt_of_le hp ?_
      simp only [Comment.stop, utf8ByteSize_eq_byteLength, String.toList_ofList,
        Pos.advance_atOffset]
      exact Nat.le_refl _
    · exact ih hps hc

/-- A comment with a token before it on its line: the token is one of these if the line was
empty. -/
theorem crowded (h : Lined offset isOpen busy ps ls cs) (hps : ∀ p ∈ ps, p.text ≠ [])
    (hbusy : busy = false) {c : Comment} (hc : c ∈ cs) (hown : c.ownLine = false) :
    ∃ l ∈ ls, l.pos < c.pos := by
  induction h with
  | nil => cases hc
  | newline _ _ _ ih =>
    obtain ⟨l, hl, hlt⟩ := ih (List.forall_mem_cons.mp hps).2 rfl hc
    exact ⟨l, List.mem_append_right _ hl, hlt⟩
  | blank _ _ ih => exact ih (List.forall_mem_cons.mp hps).2 hbusy hc
  | comment _ _ _ _ ih =>
    rcases List.mem_cons.mp hc with rfl | hc
    · rw [hbusy] at hown
      cases hown
    · obtain ⟨l, hl, hlt⟩ := ih (List.forall_mem_cons.mp hps).2 hbusy hc
      exact ⟨l, List.mem_append_right _ hl, hlt⟩
  | token _ hs _ =>
    have hle := hs.scans.le_comment_pos hc
    exact ⟨_, List.mem_cons_self, Pos.atOffset_lt_of_le (List.forall_mem_cons.mp hps).1 hle⟩

/-- **Between a comment that stands alone and a later one that does not there is a token.** -/
theorem between (h : Lined offset isOpen busy ps ls cs) (hps : ∀ p ∈ ps, p.text ≠ []) :
    cs.Pairwise fun c d => c.ownLine = true → d.ownLine = false → ∃ l ∈ ls, c.stop ≤ l.pos ∧
      l.pos < d.pos := by
  have more {cs : List Comment} {ls : List Lexeme} (ls' : List Lexeme)
      (h : cs.Pairwise fun c d => c.ownLine = true → d.ownLine = false → ∃ l ∈ ls, c.stop ≤ l.pos ∧
        l.pos < d.pos) :
      cs.Pairwise fun c d => c.ownLine = true → d.ownLine = false →
        ∃ l ∈ ls' ++ ls, c.stop ≤ l.pos ∧ l.pos < d.pos :=
    h.imp fun himp hc hd => (himp hc hd).imp fun l hl => ⟨List.mem_append_right _ hl.1, hl.2⟩
  induction h with
  | nil => exact .nil
  | newline _ _ _ ih => exact more _ (ih (List.forall_mem_cons.mp hps).2)
  | blank _ _ ih => exact ih (List.forall_mem_cons.mp hps).2
  | token _ _ ih => exact more [_] (ih (List.forall_mem_cons.mp hps).2)
  | comment _ _ _ hs ih =>
    obtain ⟨-, hps⟩ := List.forall_mem_cons.mp hps
    refine List.pairwise_cons.mpr ⟨fun d hd hown hother => ?_, more _ (ih hps)⟩
    obtain ⟨l, hl, hlt⟩ := hs.crowded hps (by simpa using hown) hd hother
    exact ⟨l, List.mem_append_right _ hl, by simpa [Comment.stop] using hs.scans.le_pos hl, hlt⟩

theorem exists_start_append {offset : Nat} {p : Piece} {ps : List Piece} {q : Pos} {P : Nat → Prop}
    (h : ∃ m ∈ startsBehindNewlines (offset + byteLength p.text) (texts ps), P m ∧
      .atOffset m ≤ q) :
    ∃ m ∈ startsBehindNewlines offset (texts (p :: ps)), P m ∧ .atOffset m ≤ q := by
  obtain ⟨m, hm, h⟩ := h
  rw [texts_cons, startsBehindNewlines_append]
  exact ⟨m, List.mem_append_right _ hm, h⟩

theorem exists_start_behind {offset : Nat} {p : Piece} {ps : List Piece} {q : Pos}
    (h : ∃ m ∈ startsBehindNewlines (offset + byteLength p.text) (texts ps),
      Pos.atOffset (offset + byteLength p.text) < .atOffset m ∧ .atOffset m ≤ q) :
    ∃ m ∈ startsBehindNewlines offset (texts (p :: ps)), Pos.atOffset offset < .atOffset m ∧
      .atOffset m ≤ q := by
  obtain ⟨m, hm, hlt, hle⟩ := exists_start_append h
  exact ⟨m, hm, Nat.lt_of_le_of_lt (Nat.succ_le_succ (Nat.le_add_right _ _)) hlt, hle⟩

/-- A line begins behind a piece with a newline. -/
theorem exists_start_piece {p : Piece} (hp : '\n' ∈ p.text) {q : Pos}
    (hq : .atOffset (offset + byteLength p.text) ≤ q) :
    ∃ m ∈ startsBehindNewlines offset (texts (p :: ps)), Pos.atOffset offset < .atOffset m ∧
      .atOffset m ≤ q := by
  obtain ⟨m, hm, hlt, hle⟩ := exists_start_of_mem hp offset
  rw [texts_cons, startsBehindNewlines_append]
  exact ⟨m, List.mem_append_left _ hm, Nat.succ_lt_succ hlt, Nat.le_trans (Nat.succ_le_succ hle) hq⟩

/-- On a line with a token, a line begins before the next comment that stands alone. -/
theorem exists_start (h : Lined offset isOpen busy ps ls cs) (hlines : EndLines ps)
    (hbusy : busy = true) {c : Comment} (hc : c ∈ cs) (hown : c.ownLine = true) :
    ∃ m ∈ startsBehindNewlines offset (texts ps), Pos.atOffset offset < .atOffset m ∧
      .atOffset m ≤ c.pos := by
  induction h with
  | nil => cases hc
  | newline hk _ hs _ =>
    have htext := (List.forall_mem_cons.mp hlines).1.1 hk
    exact exists_start_piece (htext ▸ List.mem_singleton_self '\n') (hs.scans.le_comment_pos hc)
  | blank _ _ ih => exact exists_start_behind (ih (List.forall_mem_cons.mp hlines).2 hbusy hc)
  | token _ _ ih => exact exists_start_behind (ih (List.forall_mem_cons.mp hlines).2 rfl hc)
  | comment _ _ _ _ ih =>
    rcases List.mem_cons.mp hc with rfl | hc
    · rw [hbusy] at hown
      cases hown
    · exact exists_start_behind (ih (List.forall_mem_cons.mp hlines).2 hbusy hc)

/-- **Between a token and a later comment that stands alone a line begins.** -/
theorem separate (h : Lined offset isOpen busy ps ls cs) (hlines : EndLines ps)
    {l : Lexeme} (hl : l ∈ ls) {c : Comment} (hc : c ∈ cs) (hown : c.ownLine = true)
    (hlt : l.pos < c.pos) :
    ∃ m ∈ startsBehindNewlines offset (texts ps), l.pos < .atOffset m ∧ .atOffset m ≤ c.pos := by
  induction h with
  | nil => cases hc
  | newline hk hms hs ih =>
    obtain ⟨⟨htext, -⟩, hlines⟩ := List.forall_mem_cons.mp hlines
    rcases List.mem_append.mp hl with hl | hl
    · rw [hms.eq_of_mem hl]
      exact exists_start_piece (htext hk ▸ List.mem_singleton_self '\n')
        (hs.scans.le_comment_pos hc)
    · exact exists_start_append (ih hlines hl hc)
  | blank _ _ ih => exact exists_start_append (ih (List.forall_mem_cons.mp hlines).2 hl hc)
  | comment _ hms _ hs ih =>
    obtain ⟨-, hlines⟩ := List.forall_mem_cons.mp hlines
    rcases List.mem_append.mp hl with hl | hl
    · -- the comment before closed a statement, so it spans lines
      rcases hms with rfl | ⟨hend, rfl⟩
      · cases hl
      · obtain rfl := List.mem_singleton.mp hl
        rcases List.mem_cons.mp hc with rfl | hc
        · exact absurd hlt (Nat.lt_irrefl _)
        · exact exists_start_piece (by simpa using (Bool.and_eq_true_iff.mp hend).2)
            (hs.scans.le_comment_pos hc)
    · rcases List.mem_cons.mp hc with rfl | hc
      · exact absurd (Pos.le_of_atOffset_add_le (hs.scans.le_pos hl)) (Nat.not_le_of_lt hlt)
      · exact exists_start_append (ih hlines hl hc)
  | token _ hs ih =>
    obtain ⟨-, hlines⟩ := List.forall_mem_cons.mp hlines
    rcases List.mem_cons.mp hl with rfl | hl
    · exact exists_start_behind (hs.exists_start hlines rfl hc hown)
    · exact exists_start_append (ih hlines hl hc)

end Scan.Lined

end Graft
