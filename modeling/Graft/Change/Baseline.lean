import Graft.Change.Alignment
import Graft.Change.EditLog
import Graft.Text.Source
import Graft.Tree.Basic

/-! # Comparison with an earlier version

A baseline is a tree as it was, positions included.  Comparing it with the tree as it is now marks
the range of everything that is gone or different, so that edits nobody reported are found as well.

Lists are aligned first: an inserted element marks the gap it went into, and a deleted one marks its
own range, stretched over the comments that belong to it.  Where the old side has no range of its
own, the range of the nearest enclosing tree that has one is marked instead.
-/

namespace Graft

/-! ### Likeness -/

mutual

/-- The number of leaves and nodes of a value. -/
def Tree.weight : Tree → Nat
  | .nil => 0
  | .list ts => Tree.weightAll ts
  | .node _ fs => 1 + Tree.weightAll fs
  | _ => 1

/-- The number of leaves and nodes of a list of values. -/
def Tree.weightAll : List Tree → Nat
  | [] => 0
  | t :: ts => t.weight + Tree.weightAll ts

end

mutual

/-- How alike two values are, positions aside. -/
def Tree.likeness : Tree → Tree → Similarity
  | .pos _, .pos _ => .zero
  | .nil, .nil => .zero
  | .str s, .str t => if s == t then ⟨1, 0⟩ else ⟨0, 1⟩
  | .tok s, .tok t => if s == t then ⟨1, 0⟩ else ⟨0, 1⟩
  | .node k fs, .node l gs =>
    if k == l then ⟨1, 0⟩ + Tree.likenessFields fs gs
    else ⟨0, max (max (1 + Tree.weightAll fs) (1 + Tree.weightAll gs)) 1⟩
  | .list xs, .list ys => Tree.likenessItems xs ys
  | a, b => ⟨0, max (max a.weight b.weight) 1⟩

/-- How alike the fields of two nodes of one kind are. -/
def Tree.likenessFields : List Tree → List Tree → Similarity
  | x :: xs, y :: ys => Tree.likeness x y + Tree.likenessFields xs ys
  | _, _ => .zero

/-- How alike two lists are, item by item; what one has more is different. -/
def Tree.likenessItems : List Tree → List Tree → Similarity
  | x :: xs, y :: ys => Tree.likeness x y + Tree.likenessItems xs ys
  | [], ys => ⟨0, Tree.weightAll ys⟩
  | xs, [] => ⟨0, Tree.weightAll xs⟩

end

/-- How alike two elements of aligned lists are.  Elements that differ in positions only are not
identical. -/
def Tree.similarity (a b : Tree) : Similarity :=
  let s := a.likeness b
  if s.isIdentical && !(a == b) then { s with different := 1 } else s

/-! ### Baselines -/

/-- A tree as it was. -/
structure Baseline where
  root : Node
  /-- The ranges of the comment groups of the file. -/
  comments : List Span
  lines : LineTable

namespace Baseline

/-- The baseline of a file. -/
def capture (file : Node) (lines : LineTable) : Baseline where
  root := file
  comments := (file.list .comments).map Tree.span
  lines := lines

/-- The range of a node or list; a leaf has none. -/
def place : Tree → Span
  | .node k fs => (Tree.node k fs).span
  | .list ts => (Tree.list ts).span
  | _ => .none

/-- A span if it holds something, and otherwise the enclosing one. -/
def orEnclosing (s enclosing : Span) : Span := if s.isValid && !s.isEmpty then s else enclosing

/-- A position if it names a byte. -/
def valid? (p : Pos) : Option Pos := if p.isValid then some p else none

/-- Whether one line number is below another, where a missing one is below all others. -/
def lineBelow : Option Nat → Option Nat → Bool
  | some a, some b => decide (a < b)
  | none, some _ => true
  | _, none => false

/-- A deleted element's range stretched over the comments that belong to it: a group of its own
lines right above it, and a group behind it on its last line. -/
def widen (b : Baseline) (s : Span) (prevEnd nextStart : Option Pos) : Span :=
  if !s.isValid then s
  else
    let line := b.lines.line?
    let start :=
      match b.comments.reverse.find? (fun g => decide (g.stop ≤ s.start)) with
      | none => s.start
      | some g =>
        let ownLine :=
          match prevEnd with
          | none => true
          | some p => lineBelow (line p) (line g.start)
        let adjacent :=
          match line g.stop, line s.start with
          | some l, some m => l + 1 == m
          | _, _ => false
        if ownLine && adjacent then g.start else s.start
    let stop :=
      match b.comments.find? (fun g => decide (s.stop ≤ g.start)) with
      | none => s.stop
      | some g =>
        let beforeNext :=
          match nextStart with
          | none => true
          | some p => decide (g.stop ≤ p)
        if beforeNext && (line g.start).isSome && line g.start == line s.stop then g.stop
        else s.stop
    ⟨start, stop⟩

/-- The range an insertion is seen in: the gap between its old neighbours, or the enclosing range
when it has none.  A gap that holds nothing is not marked. -/
def gapMarks (enclosing : Span) (prev next : Option Pos) : List Span :=
  match prev, next with
  | none, none => [enclosing]
  | _, _ =>
    let gap : Span := ⟨prev.getD enclosing.start, next.getD enclosing.stop⟩
    if gap.isValid && !gap.isEmpty then [gap] else []

/-- The number of equal items two lists begin with. -/
def commonCount : List Tree → List Tree → Nat
  | x :: xs, y :: ys => if x == y then commonCount xs ys + 1 else 0
  | _, _ => 0

/-- The edit script between two lists: equal items at both ends are paired, and the rest is aligned.
What is counted over two trees fits into machine words, so the costs are exact. -/
def listScript (xs ys : List Tree) : List EditStep :=
  let front := commonCount xs ys
  let back := commonCount (xs.drop front).reverse (ys.drop front).reverse
  let xm := (xs.take (xs.length - back)).drop front
  let ym := (ys.take (ys.length - back)).drop front
  let middle := Alignment.scriptBy Alignment.exactCost Alignment.defaultLimit xm.length ym.length
    fun i j => (xm[i]?.getD .nil).similarity (ym[j]?.getD .nil)
  List.replicate front .same ++ middle ++ List.replicate back .same

mutual

/-- The ranges to mark where `old` became `new`, inside the given enclosing range. -/
def marks (b : Baseline) (enclosing : Span) : Tree → Tree → List Span
  | .node k fs, .node l gs =>
    let here := orEnclosing (Tree.node k fs).span enclosing
    if k == l then fieldMarks b here fs gs else [here]
  | .list xs, .list ys =>
    itemMarks b (orEnclosing (Tree.list xs).span enclosing) none xs ys (listScript xs ys)
  | .nil, new => if new.isNil then [] else [enclosing]
  | .pos p, new => if Tree.pos p == new then [] else [enclosing]
  | .str s, new => if Tree.str s == new then [] else [enclosing]
  | .tok t, new => if Tree.tok t == new then [] else [enclosing]
  | old, _ => [orEnclosing (place old) enclosing]

/-- The ranges to mark where the fields of a node with range `here` changed. -/
def fieldMarks (b : Baseline) (here : Span) : List Tree → List Tree → List Span
  | x :: xs, y :: ys =>
    (if x.isNil != y.isNil then [here] else marks b here x y) ++ fieldMarks b here xs ys
  | _, _ => []

/-- The ranges to mark where a list changed by an edit script; `prev` is where the old item before
ends. -/
def itemMarks (b : Baseline) (enclosing : Span) (prev : Option Pos) :
    List Tree → List Tree → List EditStep → List Span
  | [], _, steps => steps.flatMap fun _ => gapMarks enclosing prev none
  | x :: xs, ys, steps =>
    let inserted := steps.takeWhile (· == .inserted)
    let gaps := inserted.flatMap fun _ => gapMarks enclosing prev (valid? (place x).start)
    let next := valid? (place x).stop
    gaps ++
      match ys.drop inserted.length, steps.drop inserted.length with
      | _ :: ys, .same :: steps => itemMarks b enclosing next xs ys steps
      | y :: ys, .modified :: steps =>
        marks b enclosing x y ++ itemMarks b enclosing next xs ys steps
      | ys, .deleted :: steps =>
        let follower := xs.head?.bind fun t => valid? (place t).start
        orEnclosing (b.widen (place x) prev follower) enclosing
          :: itemMarks b enclosing next xs ys steps
      | _, _ => []

end

/-- Marks what differs in `file`, counts the marks, and answers with the baseline of `file`. -/
def compare (b : Baseline) (file : Node) (log : EditLog) : Baseline × EditLog :=
  (capture file b.lines, (log.markAll (b.marks b.root.span b.root file)).commit)

end Baseline

end Graft
