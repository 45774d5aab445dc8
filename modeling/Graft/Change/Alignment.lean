/-! # Alignment of lists

An edit script that turns one list into another and costs least.  Leaving out an element of either
list costs `Alignment.uniqueCost`; pairing two equal elements is free, and pairing two different
ones costs in proportion to how different they are, so that an element inserted in the middle does
not make every later one count as modified.

The cheapest script is found row by row.  A `Cell` holds the cost of a cheapest script between two
beginnings of the lists together with that script, last step first; each cell is chosen from its
three neighbours.  Where costs are equal a pairing is preferred, and after that an insertion as the
last step, so that deletions come before insertions.

The aligner takes any similarity a caller gives, and computes the cost of a pairing in machine words
(`Alignment.modifiedCost`).  Where these do not overflow, no sum of costs does in a table that fits
into memory.
-/

namespace Graft

/-- How alike two elements are, counted over their leaves.  The counts are machine words; those of
trees, which are walked leaf by leaf, are far below their bound. -/
structure Similarity where
  same : Nat
  different : Nat
  deriving DecidableEq, Inhabited

namespace Similarity

/-- Nothing compared. -/
def zero : Similarity := ⟨0, 0⟩

instance : Add Similarity := ⟨fun a b => ⟨a.same + b.same, a.different + b.different⟩⟩

/-- Whether no difference was found. -/
def isIdentical (s : Similarity) : Bool := s.different == 0

end Similarity

/-- A step of an edit script. -/
inductive EditStep where
  /-- The next elements of both lists are equal. -/
  | same
  /-- The next element of the old list became the next one of the new list. -/
  | modified
  /-- The next element of the old list is gone. -/
  | deleted
  /-- The next element of the new list is new. -/
  | inserted
  deriving DecidableEq, Inhabited

namespace Alignment

/-- What leaving out an element costs. -/
def uniqueCost : Nat := 100

/-- The cost from which on two elements are not paired, unless a caller says otherwise. -/
def defaultLimit : Nat := 2 * uniqueCost

/-- What a machine word keeps of a number. -/
def word (n : Nat) : Nat := n % UInt64.size

/-- What pairing two different elements costs: as much as leaving out both if they have nothing in
common, and less in proportion. -/
def exactCost (s : Similarity) : Nat := 2 * uniqueCost * s.different / (s.same + s.different)

/-- The cost of pairing two elements as the aligner computes it, in machine words.  It is exact for
similarities that fit into them, and may be anything for others. -/
def modifiedCost (s : Similarity) : Nat :=
  word (2 * uniqueCost * s.different) / word (s.same + s.different)

variable (cost : Similarity → Nat)

/-- The step that pairs two elements, and its cost; nothing when they are too different. -/
def pairing? (limit : Nat) (s : Similarity) : Option (EditStep × Nat) :=
  if s.isIdentical then some (.same, 0)
  else if cost s < limit then some (.modified, cost s)
  else none

/-- A cheapest script between two beginnings of the lists. -/
structure Cell where
  cost : Nat
  /-- The steps, last one first. -/
  steps : List EditStep
  deriving DecidableEq, Inhabited

/-- The cell with one step more. -/
def Cell.extend (c : Cell) (step : EditStep) (cost : Nat) : Cell := ⟨c.cost + cost, step :: c.steps⟩

/-- The cheapest cell next to three others: with one element less in the new list (`left`), in the
old list (`up`) and in both (`diag`). -/
def choose (limit : Nat) (s : Similarity) (left diag up : Cell) : Cell :=
  let insertion := left.extend .inserted uniqueCost
  let deletion := up.extend .deleted uniqueCost
  let best := if deletion.cost < insertion.cost then deletion else insertion
  match pairing? cost limit s with
  | some (step, price) =>
    let pair := diag.extend step price
    if pair.cost ≤ best.cost then pair else best
  | none => best

/-- The cells of a row behind `left`, from the cells `diag :: ups` of the row before. -/
def rowFrom (limit : Nat) (similarity : Nat → Similarity) (j : Nat) (left diag : Cell) :
    List Cell → List Cell
  | [] => []
  | up :: ups =>
    let cell := choose cost limit (similarity j) left diag up
    cell :: rowFrom limit similarity (j + 1) cell up ups

/-- The row of one more element of the old list. -/
def nextRow (limit : Nat) (similarity : Nat → Similarity) : List Cell → List Cell
  | [] => []
  | first :: ups =>
    let edge := first.extend .deleted uniqueCost
    edge :: rowFrom cost limit similarity 0 edge first ups

/-- The row of no element of the old list, behind a cell: `m` insertions. -/
def firstRow (c : Cell) : Nat → List Cell
  | 0 => [c]
  | m + 1 => c :: firstRow (c.extend .inserted uniqueCost) m

/-- The row of the first `n` elements of the old list. -/
def row (limit : Nat) (similarity : Nat → Nat → Similarity) (m : Nat) : Nat → List Cell
  | 0 => firstRow ⟨0, []⟩ m
  | n + 1 => nextRow cost limit (similarity n) (row limit similarity m n)

/-- A cheapest edit script between a list of `n` elements and one of `m`, where `similarity i j`
compares element `i` of the first with element `j` of the second, and pairing them costs what `cost`
says. -/
def scriptBy (limit n m : Nat) (similarity : Nat → Nat → Similarity) : List EditStep :=
  match (row cost limit similarity m n).getLast? with
  | some c => c.steps.reverse
  | none => []

/-- The edit script of the aligner. -/
def script : (limit n m : Nat) → (similarity : Nat → Nat → Similarity) → List EditStep :=
  scriptBy modifiedCost

end Alignment

end Graft
