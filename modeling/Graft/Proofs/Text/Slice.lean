import Graft.Text.Source

/-! # Slices of a text

`Source.slice?` walks a text byte by byte.  This module says what it finds in terms of
concatenation: a slice is a stretch `w` of a text `a ++ w ++ b` (`slice?_eq_some_iff`), and the two
byte offsets are the lengths of what stands before and behind it.  An offset at which a text can be
cut (`IsCut`) is one that falls between two characters.
-/

namespace Graft

/-! ### Lengths -/

@[simp] theorem byteLength_nil : byteLength [] = 0 := rfl

@[simp] theorem byteLength_cons (c : Char) (cs : List Char) :
    byteLength (c :: cs) = c.utf8Size + byteLength cs := rfl

@[simp] theorem byteLength_append (a b : List Char) :
    byteLength (a ++ b) = byteLength a + byteLength b := by
  induction a with
  | nil => simp
  | cons c a ih => simp [ih, Nat.add_assoc]

theorem byteLength_pos {cs : List Char} (h : cs ≠ []) : 0 < byteLength cs := by
  cases cs with
  | nil => exact absurd rfl h
  | cons c cs =>
    have := c.utf8Size_pos
    simp only [byteLength_cons]
    omega

theorem byteLength_eq_zero_iff {cs : List Char} : byteLength cs = 0 ↔ cs = [] := by
  constructor
  · intro h
    apply Classical.byContradiction
    intro hne
    have := byteLength_pos hne
    omega
  · rintro rfl
    rfl

@[simp] theorem utf8ByteSize_ofList (cs : List Char) :
    (String.ofList cs).utf8ByteSize = byteLength cs := by
  induction cs with
  | nil => simp
  | cons c cs ih =>
    rw [show c :: cs = [c] ++ cs from rfl, String.ofList_append, String.utf8ByteSize_append, ih,
      byteLength_append]
    simp

theorem utf8ByteSize_eq_byteLength (s : String) : s.utf8ByteSize = byteLength s.toList := by
  rw [← utf8ByteSize_ofList, String.ofList_toList]

/-! ### Cutting at byte offsets -/

theorem dropBytes?_append (a b : List Char) : dropBytes? (byteLength a) (a ++ b) = some b := by
  induction a with
  | nil => simp [dropBytes?]
  | cons c a ih =>
    have hc := c.utf8Size_pos
    obtain ⟨n, hn⟩ : ∃ n, byteLength (c :: a) = n + 1 := ⟨byteLength (c :: a) - 1, by simp; omega⟩
    have hle : c.utf8Size ≤ n + 1 := by rw [← hn]; simp
    rw [hn, List.cons_append, dropBytes?, if_pos hle, ← hn]
    simpa using ih

theorem takeBytes?_append (a b : List Char) : takeBytes? (byteLength a) (a ++ b) = some a := by
  induction a with
  | nil => simp [takeBytes?]
  | cons c a ih =>
    have hc := c.utf8Size_pos
    obtain ⟨n, hn⟩ : ∃ n, byteLength (c :: a) = n + 1 := ⟨byteLength (c :: a) - 1, by simp; omega⟩
    have hle : c.utf8Size ≤ n + 1 := by rw [← hn]; simp
    have hrest : n + 1 - c.utf8Size = byteLength a := by rw [← hn]; simp
    rw [hn, List.cons_append, takeBytes?, if_pos hle, hrest, ih]
    rfl

theorem eq_append_of_dropBytes? {n : Nat} {cs r : List Char} (h : dropBytes? n cs = some r) :
    ∃ a, cs = a ++ r ∧ byteLength a = n := by
  fun_induction dropBytes? n cs with
  | case1 cs =>
    obtain rfl := Option.some.inj h
    exact ⟨[], rfl, rfl⟩
  | case2 => cases h
  | case3 n c cs hle ih =>
    obtain ⟨a, rfl, ha⟩ := ih h
    exact ⟨c :: a, rfl, by simp only [byteLength_cons]; omega⟩
  | case4 => cases h

theorem eq_append_of_takeBytes? {n : Nat} {cs w : List Char} (h : takeBytes? n cs = some w) :
    ∃ b, cs = w ++ b ∧ byteLength w = n := by
  fun_induction takeBytes? n cs generalizing w with
  | case1 cs =>
    obtain rfl := Option.some.inj h
    exact ⟨cs, rfl, rfl⟩
  | case2 => cases h
  | case3 n c cs hle ih =>
    obtain ⟨v, hv, rfl⟩ := Option.map_eq_some_iff.mp h
    obtain ⟨b, rfl, hb⟩ := ih hv
    exact ⟨b, rfl, by simp only [byteLength_cons]; omega⟩
  | case4 => cases h

/-- Two ways to cut one text are nested: the shorter front is the beginning of the longer. -/
theorem exists_eq_append_of_byteLength_le {a b a' b' : List Char} (h : a ++ b = a' ++ b')
    (hle : byteLength a ≤ byteLength a') : ∃ m, a' = a ++ m ∧ b = m ++ b' := by
  rcases List.append_eq_append_iff.mp h with ⟨m, rfl, rfl⟩ | ⟨m, rfl, rfl⟩
  · exact ⟨m, rfl, rfl⟩
  · have hm : m = [] := by
      rw [← byteLength_eq_zero_iff]
      simp only [byteLength_append] at hle
      omega
    subst hm
    exact ⟨[], by simp, by simp⟩

theorem sliceBytes?_eq_some_iff {cs w : List Char} {start stop : Nat} :
    sliceBytes? cs start stop = some w ↔
      ∃ a b, cs = a ++ (w ++ b) ∧ byteLength a = start ∧ start + byteLength w = stop := by
  unfold sliceBytes?
  constructor
  · intro h
    split at h
    · rename_i hle
      obtain ⟨r, hr, hw⟩ := Option.bind_eq_some_iff.mp h
      obtain ⟨a, rfl, ha⟩ := eq_append_of_dropBytes? hr
      obtain ⟨b, rfl, hb⟩ := eq_append_of_takeBytes? hw
      exact ⟨a, b, rfl, ha, by omega⟩
    · cases h
  · rintro ⟨a, b, rfl, rfl, rfl⟩
    rw [if_pos (Nat.le_add_right _ _), dropBytes?_append, Option.bind_some, Nat.add_sub_cancel_left,
      takeBytes?_append]

/-! ### Slices and cuts of a source -/

@[simp] theorem Source.text_ofText (cs : List Char) : (Source.ofText cs).text = cs := rfl

/-- **A slice is a stretch of the text**, found at the byte offsets its span names. -/
theorem Source.slice?_eq_some_iff {src : Source} {p q : Pos} {w : List Char} :
    src.slice? ⟨p, q⟩ = some w ↔
      ∃ a b, src.text = a ++ (w ++ b) ∧ p = .atOffset (byteLength a) ∧
        q = .atOffset (byteLength a + byteLength w) := by
  obtain ⟨i⟩ := p
  obtain ⟨j⟩ := q
  cases i with
  | zero => simp [slice?, Pos.offset?, Pos.atOffset]
  | succ i =>
    cases j with
    | zero => simp [slice?, Pos.offset?, Pos.atOffset]
    | succ j =>
      have hs : src.slice? ⟨⟨i + 1⟩, ⟨j + 1⟩⟩ = sliceBytes? src.text i j := rfl
      rw [hs, sliceBytes?_eq_some_iff]
      simp only [Pos.atOffset, Pos.mk.injEq, Nat.add_right_cancel_iff]
      constructor
      · rintro ⟨a, b, h, rfl, rfl⟩
        exact ⟨a, b, h, rfl, rfl⟩
      · rintro ⟨a, b, h, rfl, rfl⟩
        exact ⟨a, b, h, rfl, rfl⟩

/-- Whether a text can be cut at a position: it falls between two characters, or at an end. -/
def IsCut (cs : List Char) (p : Pos) : Prop := ∃ a b, cs = a ++ b ∧ p = .atOffset (byteLength a)

theorem IsCut.isValid {cs : List Char} {p : Pos} (h : IsCut cs p) : p.isValid = true := by
  obtain ⟨a, b, _, rfl⟩ := h
  rfl

theorem IsCut.le {cs : List Char} {p : Pos} (h : IsCut cs p) : p ≤ .atOffset (byteLength cs) := by
  obtain ⟨a, b, rfl, rfl⟩ := h
  exact Nat.succ_le_succ (byteLength_append a b ▸ Nat.le_add_right _ _)

/-- Whether a position fits the 32 bits in which positions are kept. -/
def Pos.Fits (p : Pos) : Prop := p.index < UInt32.size

/-- The positions of a text of less than `2 ^ 32 - 1` bytes fit. -/
theorem Pos.fits_of_le {cs : List Char} {p : Pos} (hcs : byteLength cs < UInt32.size - 1)
    (h : p ≤ .atOffset (byteLength cs)) : p.Fits :=
  Nat.lt_of_le_of_lt h (Nat.add_lt_of_lt_sub hcs)

theorem Source.isCut_of_slice? {src : Source} {p q : Pos} {w : List Char}
    (h : src.slice? ⟨p, q⟩ = some w) : IsCut src.text p ∧ IsCut src.text q := by
  obtain ⟨a, b, ht, rfl, rfl⟩ := Source.slice?_eq_some_iff.mp h
  exact ⟨⟨a, w ++ b, ht, rfl⟩, ⟨a ++ w, b, by simp [ht], by simp⟩⟩

/-- Between two cuts in order there is a slice. -/
theorem Source.exists_slice? {src : Source} {p q : Pos} (hp : IsCut src.text p)
    (hq : IsCut src.text q) (hle : p ≤ q) : ∃ w, src.slice? ⟨p, q⟩ = some w := by
  obtain ⟨a, b, hab, rfl⟩ := hp
  obtain ⟨a', b', hab', rfl⟩ := hq
  have hlen : byteLength a ≤ byteLength a' := Nat.le_of_add_le_add_right hle
  obtain ⟨w, rfl, rfl⟩ := exists_eq_append_of_byteLength_le (hab.symm.trans hab') hlen
  exact ⟨w, Source.slice?_eq_some_iff.mpr ⟨a, b', hab, rfl, by simp⟩⟩

/-- Adjacent slices put together are a slice. -/
theorem Source.slice?_append {src : Source} {p q r : Pos} {v w : List Char}
    (hv : src.slice? ⟨p, q⟩ = some v) (hw : src.slice? ⟨q, r⟩ = some w) :
    src.slice? ⟨p, r⟩ = some (v ++ w) := by
  obtain ⟨a, b, hab, rfl, rfl⟩ := Source.slice?_eq_some_iff.mp hv
  obtain ⟨a', b', hab', hq, rfl⟩ := Source.slice?_eq_some_iff.mp hw
  have hlen : byteLength (a ++ v) = byteLength a' := by
    simpa [Pos.atOffset] using hq
  obtain ⟨m, hm, hb⟩ := exists_eq_append_of_byteLength_le
    (show (a ++ v) ++ b = a' ++ (w ++ b') by rw [List.append_assoc, ← hab, hab'])
    (Nat.le_of_eq hlen)
  have hnil : m = [] := by
    rw [← byteLength_eq_zero_iff]
    rw [hm] at hlen
    simp only [byteLength_append] at hlen
    omega
  subst hnil
  rw [List.append_nil] at hm
  subst hm
  refine Source.slice?_eq_some_iff.mpr ⟨a, b', by simpa using hab', rfl, ?_⟩
  simp [Nat.add_assoc]

/-- The slice from the front to the end of a text is the text. -/
theorem Source.slice?_all (src : Source) :
    src.slice? ⟨.atOffset 0, .atOffset (byteLength src.text)⟩ = some src.text :=
  Source.slice?_eq_some_iff.mpr ⟨[], [], by simp, rfl, by simp⟩

/-- A slice inside a slice is a part of its text. -/
theorem Source.isInfix_of_slice? {src : Source} {p q p' q' : Pos} {v w : List Char}
    (hv : src.slice? ⟨p, q⟩ = some v) (hw : src.slice? ⟨p', q'⟩ = some w) (hp : p' ≤ p)
    (hq : q ≤ q') : v <:+: w := by
  obtain ⟨x, hx⟩ :=
    Source.exists_slice? (Source.isCut_of_slice? hw).1 (Source.isCut_of_slice? hv).1 hp
  obtain ⟨y, hy⟩ :=
    Source.exists_slice? (Source.isCut_of_slice? hv).2 (Source.isCut_of_slice? hw).2 hq
  have h := Source.slice?_append (Source.slice?_append hx hv) hy
  obtain rfl := Option.some.inj (hw.symm.trans h)
  exact ⟨x, y, rfl⟩

end Graft
