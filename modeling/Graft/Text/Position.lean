/-! # Positions and spans

A **position** names a byte of one text, or nothing.  Trees carry a position for every token they
were read from; a tree that was put together rather than read carries *no* positions, and the two
have to be told apart.  So the index of a position counts from one and zero stands for "nowhere":
moving a position that is nowhere leaves it nowhere (`Pos.advance`).

Positions are kept in 32 bits, but are numbers without a bound here.  That makes no difference for
a text of less than 2^32 - 1 bytes, where all positions fit: those of its scan (`Scan.ofText_fits`),
of the file that is read of it (`parseFile_fits`) and of the sides of its patches
(`PatchFile.fits_sides`).  What is said about positions of longer texts holds of these numbers only.

A **span** is a half-open range of positions.  Spans come out of trees whose positions may be absent
or out of order, so a span need not be valid; `Span.cover` ignores the side that is not.
-/

namespace Graft

/-- A place in a text, or nowhere. -/
structure Pos where
  /-- One more than the byte offset of the place; zero for nowhere. -/
  index : Nat
  deriving DecidableEq, Inhabited, Hashable

namespace Pos

/-- The position that names no byte. -/
def none : Pos := ⟨0⟩

/-- The position of the byte at `offset`. -/
def atOffset (offset : Nat) : Pos := ⟨offset + 1⟩

/-- Whether the position names a byte. -/
def isValid (p : Pos) : Bool := p.index != 0

/-- The byte offset of a valid position. -/
def offset? (p : Pos) : Option Nat :=
  match p.index with
  | 0 => .none
  | n + 1 => some n

/-- The position `n` bytes further on; nowhere stays nowhere. -/
def advance (p : Pos) (n : Nat) : Pos := if p.isValid then ⟨p.index + n⟩ else p

instance : LE Pos := ⟨fun a b => a.index ≤ b.index⟩
instance : LT Pos := ⟨fun a b => a.index < b.index⟩
instance (a b : Pos) : Decidable (a ≤ b) := inferInstanceAs (Decidable (a.index ≤ b.index))
instance (a b : Pos) : Decidable (a < b) := inferInstanceAs (Decidable (a.index < b.index))
instance : Max Pos := ⟨fun a b => ⟨max a.index b.index⟩⟩
instance : Min Pos := ⟨fun a b => ⟨min a.index b.index⟩⟩

theorem le_def {a b : Pos} : a ≤ b ↔ a.index ≤ b.index := Iff.rfl

theorem lt_def {a b : Pos} : a < b ↔ a.index < b.index := Iff.rfl

@[simp] theorem index_max (a b : Pos) : (max a b).index = max a.index b.index := rfl

@[simp] theorem index_min (a b : Pos) : (min a b).index = min a.index b.index := rfl

@[simp] theorem isValid_none : none.isValid = false := rfl

@[simp] theorem isValid_atOffset (n : Nat) : (atOffset n).isValid = true := rfl

@[simp] theorem offset?_atOffset (n : Nat) : (atOffset n).offset? = some n := rfl

@[simp] theorem advance_none (n : Nat) : none.advance n = none := rfl

@[simp] theorem advance_atOffset (m n : Nat) : (atOffset m).advance n = atOffset (m + n) := by
  simp [advance, atOffset, isValid]; omega

theorem eq_none {p : Pos} (h : ¬ p.isValid = true) : p = .none := by
  obtain ⟨i⟩ := p
  simpa [isValid, none] using h

@[simp] theorem isValid_advance (p : Pos) (n : Nat) : (p.advance n).isValid = p.isValid := by
  unfold advance
  split
  · rename_i hp
    rw [hp]
    simp [isValid] at hp ⊢
    omega
  · rfl

@[simp] theorem isValid_max (p q : Pos) : (max p q).isValid = (p.isValid || q.isValid) := by
  rw [Bool.eq_iff_iff]
  simp [isValid]
  omega

/-- The text form of a position in messages: its byte offset behind an at sign. -/
def display (p : Pos) : String :=
  match p.offset? with
  | some n => "@" ++ toString n
  | .none => "@-"

/-- The first position of a list that names a byte. -/
def firstValid : List Pos → Pos
  | [] => none
  | p :: ps => if p.isValid then p else firstValid ps

end Pos

/-- The positions from `start` up to, and not including, `stop`. -/
structure Span where
  start : Pos
  stop : Pos
  deriving DecidableEq, Inhabited

namespace Span

/-- The span between no two places. -/
def none : Span := ⟨.none, .none⟩

/-- The span that holds nothing and stands at `p`. -/
def emptyAt (p : Pos) : Span := ⟨p, p⟩

/-- Whether both ends name a byte and stand in order. -/
def isValid (s : Span) : Bool := s.start.isValid && s.stop.isValid && decide (s.start ≤ s.stop)

/-- Whether no position lies inside. -/
def isEmpty (s : Span) : Bool := decide (s.stop ≤ s.start)

/-- The least span around both; a span that is not valid counts for nothing. -/
def cover (s t : Span) : Span :=
  if !s.isValid then t
  else if !t.isValid then s
  else ⟨min s.start t.start, max s.stop t.stop⟩

/-- Both ends moved by `n` bytes. -/
def advance (s : Span) (n : Nat) : Span := ⟨s.start.advance n, s.stop.advance n⟩

/-- The text form of a span in messages. -/
def display (s : Span) : String := s.start.display ++ ".." ++ s.stop.display

end Span

end Graft
