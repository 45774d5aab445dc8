import Graft.Patch.Read

/-! # Pairing the sides of a patch

Which place of the pattern a place of the replacement stands for.

* A token on a context line is the same token on both sides, at the same line and column.
* A wildcard on an added line stands for the wildcard of the same rank among the removed lines of
  its hunk.
* So does a node that can have a comment above it, among the nodes of its kind.
-/

namespace Graft

/-! ### Positions of a side -/

namespace Fragment

/-- The trees of a fragment in source order. -/
def trees (f : Fragment) : List Tree :=
  (f.package.map (·.2)).toList ++ f.imports ++
    match f.body with
    | .empty => []
    | .expr x => [x]
    | .stmts ts => ts
    | .decls ts => ts

end Fragment

/-- The places recorded in a fragment. -/
def Fragment.positions (f : Fragment) : List Pos :=
  (f.package.map (·.1)).toList ++ f.trees.flatMap Tree.positions

/-- Whether nodes of a kind can have a comment above them. -/
def Kind.isDocumented (k : Kind) : Bool := k.fields.any (·.slot == .doc)

/-- The place by which the comment above a node is known: the first one outside of the comment. -/
def Node.docKey? (n : Node) : Option Pos :=
  let starts := ((n.kind.fields.zip n.fields).filter (·.1.slot != .doc)).map (·.2.start)
  starts.find? (·.isValid)

/-- The place by which a node is ranked on changed lines. -/
def Node.rankKey? (n : Node) : Option Pos :=
  if n.kind = .dots then some n.start
  else if n.kind.isDocumented then n.docKey?
  else none

/-! ### Ranks -/

/-- A wildcard or documented node on a changed line. -/
structure Ranked where
  pos : Pos
  hunk : Nat
  kind : Kind

namespace Ranked

/-- Puts a place among sorted ones, in front of those that are not before it. -/
def insertPlace (x : Pos × Kind) : List (Pos × Kind) → List (Pos × Kind)
  | [] => [x]
  | y :: ys => if x.1 ≤ y.1 then x :: y :: ys else y :: insertPlace x ys

/-- Sorts places; nodes at the same place stay in order. -/
def sortPlaces (xs : List (Pos × Kind)) : List (Pos × Kind) := xs.foldr insertPlace []

/-- The wildcards and documented nodes on lines for which `hunkOf` gives a hunk, in source order. -/
def ofSide (s : Side) (hunkOf : Origin → Option Nat) : List Ranked :=
  let found := (s.fragment.trees.flatMap Tree.nodes).filterMap fun n =>
    n.rankKey?.map fun p => (p, n.kind)
  (sortPlaces found).filterMap fun (p, kind) =>
    ((s.origin? p).bind hunkOf).map fun hunk => ⟨p, hunk, kind⟩

/-- The places of one group of ranked nodes. -/
def group (rs : List Ranked) (hunk : Nat) (kind : Kind) : List Pos :=
  (rs.filter fun r => r.hunk == hunk && r.kind == kind).map (·.pos)

/-- The places of added nodes with the places of removed nodes of the same rank. -/
def pairs (added removed : List Ranked) : List (Pos × Pos) :=
  let groups := (added.map fun r => (r.hunk, r.kind)).eraseDups
  groups.flatMap fun (hunk, kind) => (group added hunk kind).zip (group removed hunk kind)

end Ranked

/-! ### Pairings -/

/-- Places of the replacement with the places of the pattern they stand for, in the order of the
former. -/
structure Pairing where
  pairs : List (Pos × Pos)

namespace Pairing

/-- Puts a pair among others; a newer pair of a place takes the place of an older one. -/
def insertPair (pair : Pos × Pos) : List (Pos × Pos) → List (Pos × Pos)
  | [] => [pair]
  | q :: qs =>
    if pair.1 < q.1 then pair :: q :: qs
    else if pair.1 = q.1 then pair :: qs
    else q :: insertPair pair qs

/-- The place of the pattern that a place of the replacement stands for. -/
def get? (a : Pairing) (p : Pos) : Option Pos := (a.pairs.find? (·.1 == p)).map (·.2)

/-- The pairs of tokens on context lines. -/
def contextPairs (minus plus : Side) : List (Pos × Pos) :=
  let inPattern := minus.fragment.positions
  plus.fragment.positions.filterMap fun p =>
    if plus.origin? p == some .context then
      ((plus.lines.lineCol? p).bind fun (line, col) => minus.posAt? line col).bind fun q =>
        if inPattern.contains q then some (p, q) else none
    else none

/-- The pairs of wildcards and documented nodes on changed lines. -/
def changedPairs (minus plus : Side) : List (Pos × Pos) :=
  let added := Ranked.ofSide plus fun
    | .added hunk => some hunk
    | _ => none
  let removed := Ranked.ofSide minus fun
    | .removed hunk => some hunk
    | _ => none
  Ranked.pairs added removed

/-- The pairing of the two sides of a patch. -/
def ofPatch (p : Patch) : Pairing :=
  ⟨(contextPairs p.minus p.plus ++ changedPairs p.minus p.plus).foldl
    (fun pairs pair => insertPair pair pairs) []⟩

end Pairing

end Graft
