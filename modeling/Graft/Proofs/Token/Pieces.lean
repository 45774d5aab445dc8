import Graft.Token.Lexeme

/-! # What the pieces of a text are

`Piece.split` cuts a text without losing a character.  `Splits` says so as a relation — each piece
is what `recognise` finds at the front of what is left — and the lemmas below say what the pieces of
each kind look like: blanks and line ends are single characters, and the characters of a token whose
spelling is fixed are that spelling.
-/

namespace Graft

namespace Piece

/-- The characters of some pieces. -/
def texts (ps : List Piece) : List Char := ps.flatMap (·.text)

@[simp] theorem texts_nil : texts [] = [] := rfl

@[simp] theorem texts_cons (p : Piece) (ps : List Piece) :
    texts (p :: ps) = p.text ++ texts ps := rfl

@[simp] theorem texts_append (ps qs : List Piece) : texts (ps ++ qs) = texts ps ++ texts qs :=
  List.flatMap_append

/-- The pieces of a text: each is what is recognised at the front of what is left. -/
inductive Splits : List Char → List Piece → Prop where
  | nil : Splits [] []
  | cons {c : Char} {cs : List Char} {kind : Class} {n : Nat} {ps : List Piece}
      (h : recognise c cs = .ok (kind, n)) (hs : Splits (cs.drop n) ps) :
    Splits (c :: cs) (⟨kind, c :: cs.take n⟩ :: ps)

theorem splits_of_split {offset : Nat} {cs : List Char} {ps : List Piece}
    (h : split offset cs = .ok ps) : Splits cs ps := by
  fun_induction split offset cs generalizing ps with
  | case1 =>
    cases h
    exact .nil
  | case2 => cases h
  | case3 offset c cs =>
    rename_i kind n hr text ih
    cases hs : split (offset + byteLength (c :: cs.take n)) (cs.drop n) with
    | error e => rw [hs] at h; cases h
    | ok qs =>
      rw [hs] at h
      cases h
      exact .cons hr (ih hs)

/-- **Cutting a text into pieces loses no character.** -/
theorem Splits.texts_eq {cs : List Char} {ps : List Piece} (h : Splits cs ps) : texts ps = cs := by
  induction h with
  | nil => rfl
  | cons _ _ ih => simp [ih]

theorem Splits.text_ne_nil {cs : List Char} {ps : List Piece} (h : Splits cs ps) {p : Piece}
    (hp : p ∈ ps) : p.text ≠ [] := by
  induction h with
  | nil => cases hp
  | cons _ _ ih =>
    rcases List.mem_cons.mp hp with rfl | hp
    · exact List.cons_ne_nil _ _
    · exact ih hp

/-! ### The shape of pieces -/

theorem take_runLength (p : Char → Bool) (cs : List Char) :
    cs.take (runLength p cs) = cs.takeWhile p :=
  (List.prefix_iff_eq_take.mp (List.takeWhile_prefix p)).symm

theorem drop_runLength (p : Char → Bool) (cs : List Char) :
    cs.drop (runLength p cs) = cs.dropWhile p := by
  induction cs with
  | nil => rfl
  | cons c cs ih =>
    by_cases hc : p c
    · simpa [runLength, List.takeWhile_cons, List.dropWhile_cons, hc] using ih
    · simp [runLength, hc]

theorem keyword?_eq_some {word : String} {t : Token} (h : Token.keyword? word = some t) :
    t ∈ Token.keywords ∧ t.text = word :=
  ⟨List.mem_of_find?_eq_some h, by simpa using List.find?_some h⟩

theorem operator?_eq_some {cs : List Char} {t : Token} (h : operator? cs = some t) :
    t ∈ Token.operators ∧ t.text.toList <+: cs :=
  ⟨List.mem_of_find?_eq_some h, by simpa using List.find?_some h⟩

/-- What is true of the characters of a token piece. -/
structure IsSpelling (t : Token) (cs : List Char) : Prop where
  ne_eof : t ≠ .eof
  ne_illegal : t ≠ .illegal
  eq_text : t.carriesText = false → cs = t.text.toList
  semicolon : t = .semicolon → cs = [';']

theorem isSpelling_of_carriesText {t : Token} {cs : List Char} (h : t.carriesText = true)
    (hs : t ≠ .semicolon) : IsSpelling t cs where
  ne_eof := by rintro rfl; cases h
  ne_illegal := by rintro rfl; cases h
  eq_text h' := by rw [h] at h'; cases h'
  semicolon h' := absurd h' hs

theorem isSpelling_of_keyword {t : Token} (h : t ∈ Token.keywords) :
    IsSpelling t t.text.toList := by
  have hall : ∀ t ∈ Token.keywords, t ≠ .eof ∧ t ≠ .illegal ∧ t ≠ .semicolon := by decide
  obtain ⟨heof, hillegal, hsemi⟩ := hall t h
  exact ⟨heof, hillegal, fun _ => rfl, fun h' => absurd h' hsemi⟩

theorem isSpelling_of_operator {t : Token} (h : t ∈ Token.operators) :
    IsSpelling t t.text.toList := by
  have hall : ∀ t ∈ Token.operators, t ≠ .eof ∧ t ≠ .illegal := by decide
  obtain ⟨heof, hillegal⟩ := hall t h
  exact ⟨heof, hillegal, fun _ => rfl, by rintro rfl; rfl⟩

theorem number_token (cs : List Char) : (number cs).1 ∈ [Token.int, .float, .imag] := by
  have hreal : (realNumber cs).1 ∈ [Token.int, .float, .imag] := by
    unfold realNumber
    dsimp only
    split
    · split
      · simp
      · split <;> simp
    · split <;> simp
  unfold number
  dsimp only
  split
  · simp
  · exact hreal

theorem recogniseToken_ok {c : Char} {cs : List Char} {t : Token} {n : Nat}
    (h : recogniseToken c cs = .ok (t, n)) : IsSpelling t (c :: cs.take n) := by
  unfold recogniseToken at h
  split at h
  · -- a word
    cases h
    rw [show (cs.takeWhile isWordChar).length = runLength isWordChar cs from rfl, take_runLength]
    unfold wordToken
    cases hk : Token.keyword? (String.ofList (c :: cs.takeWhile isWordChar)) with
    | none => exact isSpelling_of_carriesText rfl (by decide)
    | some k =>
      obtain ⟨hmem, htext⟩ := keyword?_eq_some hk
      have := isSpelling_of_keyword hmem
      rwa [htext, String.toList_ofList] at this
  split at h
  · -- a number
    have hmem := number_token (c :: cs)
    have ht : (number (c :: cs)).1 = t := (Prod.mk.inj (Except.ok.inj h)).1
    rw [ht] at hmem
    simp only [List.mem_cons, List.not_mem_nil, or_false] at hmem
    rcases hmem with rfl | rfl | rfl <;> exact isSpelling_of_carriesText rfl (by decide)
  split at h
  · -- a quoted literal
    split at h
    · cases h
      split <;> exact isSpelling_of_carriesText rfl (by decide)
    · cases h
  · -- an operator
    split at h
    · rename_i t hop
      cases h
      obtain ⟨hmem, hprefix⟩ := operator?_eq_some hop
      have hne : t.text.length ≠ 0 := by
        have hall : ∀ t ∈ Token.operators, t.text.length ≠ 0 := by decide
        exact hall t hmem
      have htext : c :: cs.take (t.text.length - 1) = t.text.toList := by
        rw [List.prefix_iff_eq_take.mp hprefix, String.length_toList, ← Nat.succ_pred hne]
        rfl
      rw [htext]
      exact isSpelling_of_operator hmem
    · cases h

/-- The characters of blank pieces and of line ends. -/
def blanks : List Char := ['\n', ' ', '\t', '\r']

/-- What is true of a piece, given the characters behind it. -/
def IsShaped : Class → List Char → List Char → Prop
  | .newline, cs, _ | .blank, cs, _ => ∃ c ∈ blanks, cs = [c]
  | .token t, cs, _ => IsSpelling t cs
  | .comment, cs, rest =>
    (∃ w, cs = '/' :: '/' :: w ∧ '\n' ∉ w ∧ ∀ c ∈ rest.head?, c = '\n') ∨
      ∃ w, cs = '/' :: '*' :: w ∧ blockLength? w = some w.length

theorem two_le_of_blockLength? {cs : List Char} {n : Nat} (h : blockLength? cs = some n) :
    2 ≤ n := by
  induction cs generalizing n with
  | nil => cases h
  | cons c cs ih =>
    rw [blockLength?] at h
    split at h
    · cases h
      exact Nat.le_refl _
    · obtain ⟨m, hm, rfl⟩ := Option.map_eq_some_iff.mp h
      exact Nat.le_succ_of_le (ih hm)

/-- A block comment is as long as it says, and does not depend on what follows. -/
theorem blockLength?_take {cs : List Char} {n : Nat} (h : blockLength? cs = some n) :
    blockLength? (cs.take n) = some (cs.take n).length := by
  induction cs generalizing n with
  | nil => cases h
  | cons c cs ih =>
    rw [blockLength?] at h
    split at h
    · rename_i hend
      cases h
      cases cs with
      | nil => simp at hend
      | cons d cs =>
        rw [List.take_succ_cons, List.take_succ_cons, List.take_zero, blockLength?]
        rw [List.head?_cons] at hend ⊢
        rw [if_pos hend]
        rfl
    · rename_i hend
      obtain ⟨m, hm, rfl⟩ := Option.map_eq_some_iff.mp h
      have hhead : (cs.take m).head? = cs.head? := by
        have := two_le_of_blockLength? hm
        rw [List.head?_take, if_neg (by omega)]
      rw [List.take_succ_cons, blockLength?, hhead, if_neg hend, ih hm]
      rfl

theorem recognise_ok {c : Char} {cs : List Char} {kind : Class} {n : Nat}
    (h : recognise c cs = .ok (kind, n)) : IsShaped kind (c :: cs.take n) (cs.drop n) := by
  unfold recognise at h
  split at h
  · rename_i hc
    cases h
    exact ⟨c, by simp_all [blanks], rfl⟩
  split at h
  · rename_i hc
    cases h
    exact ⟨c, by simp_all [blanks, or_assoc], rfl⟩
  split at h
  · -- a comment up to the end of the line
    rename_i hc
    cases h
    simp only [Bool.and_eq_true, beq_iff_eq] at hc
    obtain ⟨rfl, hc⟩ := hc
    obtain ⟨ds, rfl⟩ := List.head?_eq_some_iff.mp hc
    rw [take_runLength, drop_runLength]
    refine .inl ⟨ds.takeWhile (· != '\n'), rfl, ?_, ?_⟩
    · intro hmem
      have := List.all_eq_true.mp List.all_takeWhile _ hmem
      simp at this
    · intro e he
      have := List.head?_dropWhile_not (· != '\n') ('/' :: ds)
      rw [he] at this
      simpa using this
  split at h
  · -- a comment in brackets, which must be closed
    rename_i hc
    simp only [Bool.and_eq_true, beq_iff_eq] at hc
    obtain ⟨rfl, hc⟩ := hc
    obtain ⟨ds, rfl⟩ := List.head?_eq_some_iff.mp hc
    split at h
    · rename_i m hm
      cases h
      rw [List.drop_one, List.tail_cons] at hm
      exact .inr ⟨ds.take m, rfl, blockLength?_take hm⟩
    · cases h
  · cases hr : recogniseToken c cs with
    | error e => rw [hr] at h; cases h
    | ok x =>
      rw [hr] at h
      cases h
      exact recogniseToken_ok hr

/-- A piece is what it is if less follows. -/
theorem IsShaped.of_prefix {kind : Class} {cs rest rest' : List Char} (h : IsShaped kind cs rest)
    (hr : rest' <+: rest) : IsShaped kind cs rest' := by
  cases kind with
  | newline | blank | token => exact h
  | comment =>
    rcases h with ⟨w, hcs, hw, hrest⟩ | h
    · refine .inl ⟨w, hcs, hw, fun c hc => hrest c ?_⟩
      obtain ⟨ds, rfl⟩ := List.head?_eq_some_iff.mp (Option.mem_def.mp hc)
      obtain ⟨es, rfl⟩ := hr
      rfl
    · exact .inr h

/-- Whether every token piece is spelled as its token says. -/
def AllSpelled (ps : List Piece) : Prop := ∀ p ∈ ps, ∀ t, p.kind = .token t → IsSpelling t p.text

theorem AllSpelled.tail {p : Piece} {ps : List Piece} (h : AllSpelled (p :: ps)) : AllSpelled ps :=
  fun q hq => h q (List.mem_cons_of_mem _ hq)

theorem AllSpelled.head {p : Piece} {ps : List Piece} {t : Token} (h : AllSpelled (p :: ps))
    (hk : p.kind = .token t) : IsSpelling t p.text := h p List.mem_cons_self t hk

theorem Splits.allSpelled {cs : List Char} {ps : List Piece} (h : Splits cs ps) :
    AllSpelled ps := by
  induction h with
  | nil => exact fun p hp => absurd hp List.not_mem_nil
  | cons hr _ ih =>
    intro p hp t ht
    rcases List.mem_cons.mp hp with rfl | hp
    · have hshape := recognise_ok hr
      obtain rfl : _ = Class.token t := ht
      exact hshape
    · exact ih p hp t ht

/-- Whether every piece between tokens that is no comment is a single blank. -/
def AllBlank (ps : List Piece) : Prop :=
  ∀ p ∈ ps, p.kind = .newline ∨ p.kind = .blank → ∃ c ∈ blanks, p.text = [c]

theorem AllBlank.tail {p : Piece} {ps : List Piece} (h : AllBlank (p :: ps)) : AllBlank ps :=
  fun q hq => h q (List.mem_cons_of_mem _ hq)

theorem Splits.allBlank {cs : List Char} {ps : List Piece} (h : Splits cs ps) : AllBlank ps := by
  induction h with
  | nil => exact fun p hp => absurd hp List.not_mem_nil
  | cons hr _ ih =>
    intro p hp hk
    rcases List.mem_cons.mp hp with rfl | hp
    · have hshape := recognise_ok hr
      rcases hk with hk | hk
      · obtain rfl : _ = Class.newline := hk
        exact hshape
      · obtain rfl : _ = Class.blank := hk
        exact hshape
    · exact ih p hp hk

end Piece

end Graft
