import Graft.Layout.Printer
import Graft.Proofs.Token.Pieces

/-! # Gaps between tokens have no substance

The printer takes over a gap of the source only if nothing is left of it without its blanks,
semicolons and comments (`substance`).  The comments there are found by a second reading of the
text.  Here the two readings are compared: what the lexer takes for a blank, a line end or a comment
has no substance.
-/

namespace Graft

open Piece

theorem substance_blank {c : Char} {cs : List Char} (h : (isBlank c || c == ';') = true) :
    substance .nothing (c :: cs) = substance .nothing cs := by
  rw [substance.eq_def]
  split
  case h_1 heq => cases heq
  case h_2 heq | h_3 heq =>
    cases heq
    exact absurd h (by decide)
  case h_4 heq =>
    cases heq
    rw [if_pos h]
  case h_5 heq _ | h_6 heq _ | h_7 heq _ => cases heq

theorem substance_line (c : Char) (cs : List Char) :
    substance .lineComment (c :: cs) =
      substance (if c == '\n' then .nothing else .lineComment) cs := by
  rw [substance.eq_def]
  split <;> simp_all

theorem substance_block {c d : Char} {cs : List Char} (h : ¬ (c = '*' ∧ d = '/')) :
    substance .blockComment (c :: d :: cs) = substance .blockComment (d :: cs) := by
  rw [substance.eq_def]
  split <;> simp_all

theorem substance_cons {c : Char} {cs : List Char} (h : c ∈ ';' :: blanks) :
    substance .nothing (c :: cs) = substance .nothing cs := by
  apply substance_blank
  simp only [blanks, List.mem_cons, List.not_mem_nil, or_false] at h
  rcases h with rfl | rfl | rfl | rfl | rfl <;> decide

/-- A text of blanks and semicolons has no substance. -/
theorem substance_eq_nil {cs : List Char} (h : ∀ c ∈ cs, c ∈ ';' :: blanks) :
    substance .nothing cs = [] := by
  induction cs with
  | nil => rfl
  | cons c cs ih =>
    rw [substance_cons (h c List.mem_cons_self)]
    exact ih (fun d hd => h d (List.mem_cons_of_mem _ hd))

theorem substance_lineComment {w rest : List Char} (hw : '\n' ∉ w)
    (hrest : ∀ c ∈ rest.head?, c = '\n') :
    substance .lineComment (w ++ rest) = substance .nothing rest := by
  induction w with
  | nil =>
    cases rest with
    | nil => rfl
    | cons c rest =>
      obtain rfl := hrest c (by simp)
      rw [List.nil_append, substance_cons (by decide), substance_line]
      rfl
  | cons c w ih =>
    have hc : (c == '\n') = false := by
      simp only [beq_eq_false_iff_ne]
      rintro rfl
      exact hw List.mem_cons_self
    rw [List.cons_append, substance_line, hc]
    exact ih (fun h => hw (List.mem_cons_of_mem _ h))

theorem substance_blockComment {w : List Char} (rest : List Char)
    (hw : blockLength? w = some w.length) :
    substance .blockComment (w ++ rest) = substance .nothing rest := by
  induction w with
  | nil => exact absurd (two_le_of_blockLength? hw) (by simp)
  | cons c w ih =>
    cases w with
    | nil => exact absurd (two_le_of_blockLength? hw) (by simp)
    | cons d w =>
      rw [blockLength?] at hw
      split at hw
      · rename_i hend
        simp only [List.head?_cons, Bool.and_eq_true, beq_iff_eq,
          Option.some.injEq] at hend
        obtain ⟨rfl, rfl⟩ := hend
        have hnil : w = [] := by
          simpa using Option.some.inj hw
        subst hnil
        rfl
      · rename_i hend
        obtain ⟨m, hm, heq⟩ := Option.map_eq_some_iff.mp hw
        have hm : blockLength? (d :: w) = some (d :: w).length := by
          rw [hm, ← Nat.succ.inj heq]
        rw [List.cons_append, List.cons_append, substance_block]
        · exact ih hm
        · rintro ⟨rfl, rfl⟩
          exact hend (by simp)

/-- What the lexer leaves out between tokens has no substance. -/
theorem substance_piece {kind : Piece.Class} {cs rest : List Char} (h : IsShaped kind cs rest)
    (hk : ∀ t, kind ≠ .token t) : substance .nothing (cs ++ rest) = substance .nothing rest := by
  cases kind with
  | newline | blank =>
    obtain ⟨c, hc, rfl⟩ := h
    exact substance_cons (List.mem_cons_of_mem _ hc)
  | comment =>
    rcases h with ⟨w, rfl, hw, hrest⟩ | ⟨w, rfl, hw⟩
    · exact substance_lineComment hw hrest
    · exact substance_blockComment _ hw
  | token t => exact absurd rfl (hk t)

/-- The text before a token or behind it, cut where a piece ends. -/
theorem Piece.Splits.substance_texts {cs : List Char} {ps qs : List Piece}
    (h : Splits cs (ps ++ qs)) (hps : ∀ p ∈ ps, ∀ t, p.kind ≠ .token t) :
    substance .nothing (texts ps) = [] := by
  induction ps generalizing cs with
  | nil => rfl
  | cons p ps ih =>
    generalize hpq : p :: ps ++ qs = rs at h
    cases h with
    | nil => cases hpq
    | cons hr hs =>
      cases hpq
      have htexts : texts (ps ++ qs) = _ := hs.texts_eq
      have hprefix : texts ps <+: _ := ⟨texts qs, by rw [← texts_append, htexts]⟩
      have hshape := IsShaped.of_prefix (recognise_ok hr) hprefix
      rw [texts_cons, substance_piece hshape (hps _ List.mem_cons_self),
        ih hs (fun q hq => hps q (List.mem_cons_of_mem _ hq))]

end Graft
