import Graft.Match.Captures

/-! # Patterns

A pattern is laid out like the tree it was made from.  Most forms are structural; the others are
metavariables, wildcards in lists, elided field lists and loop headers, and the comment above a
node, which is recorded and never compared.

A list with wildcards is cut into **sections** at them.  What stands before the first wildcard has
to match at the front of the list; each later section is looked for from left to right, starting
where the one before ended; and the last one has to end with the list.  A place once found for
a section is never given up again.  What lies between two sections is the **run** of the wildcard
there.

A metavariable is bound where it occurs first; further occurrences have to spell the same code,
which is checked by the literal pattern of the bound value (`Pattern.literal`).
-/

namespace Graft

/-- What a metavariable may stand for. -/
inductive MetaKind where
  | expression
  | identifier
  deriving DecidableEq, Inhabited

namespace MetaKind

/-- The kind with the given name. -/
def ofName? : String → Option MetaKind
  | "expression" => some expression
  | "identifier" => some identifier
  | _ => none

/-- Whether a metavariable may stand for a value. -/
def admits (m : MetaKind) (t : Tree) : Bool :=
  match m, t.kind? with
  | expression, some k => k != .dots && k.isA .expr
  | identifier, some k => k == .ident
  | _, none => false

end MetaKind

/-- What a value is compared with. -/
inductive Pattern where
  | nil
  | node (kind : Kind) (fields : List Pattern)
  /-- A list without wildcards. -/
  | list (items : List Pattern)
  /-- A list with wildcards: what stands before the first one, and each one with what follows it. -/
  | runs (front : List Pattern) (sections : List (Key × List Pattern))
  /-- A token, present or absent as given, whose place is recorded. -/
  | pos (p : Pos)
  | anyPos
  | str (s : String)
  | tok (t : Token)
  /-- The comment above the node at the given place of the pattern. -/
  | doc (p : Pos)
  /-- Anything, and nothing is recorded. -/
  | any
  | metavar (name : String) (kind : MetaKind)
  /-- Any field list, or none, elided by the wildcard at the given place. -/
  | fieldList (dots : Pos)
  /-- A loop with any header, elided by the wildcard at the given place. -/
  | loop (dots : Pos) (body : Pattern)

/-! ### Runs -/

/-- The range of the elements `vs[first..stop]` of a list, stretched to the elements beside them. -/
def runSpan (vs : List Tree) (first stop : Nat) : Span :=
  let valid (p : Pos) : Option Pos := if p.isValid then some p else none
  let skipped := (vs.take stop).drop first
  let prev := (if first = 0 then none else vs[first - 1]?).bind fun t => valid t.stop
  let next := vs[stop]?.bind fun t => valid t.start
  let first := prev <|> (skipped.head?.bind fun t => valid t.start) <|> next
  let last := next <|> (skipped.getLast?.bind fun t => valid t.stop) <|> first
  match first, last with
  | some s, some e => if s ≤ e then ⟨s, e⟩ else .emptyAt s
  | some s, none => .emptyAt s
  | none, _ => .none

/-- A node with one field cleared. -/
def Node.without (n : Node) (l : Label) : Node :=
  match n.get l with
  | .list _ => n.set l (.list [])
  | _ => n.set l .nil

namespace Pattern

mutual

/-- The pattern of values that spell the same code as the given one, comments above nodes aside. -/
def literal : Tree → Pattern
  | .nil => nil
  | .pos _ => anyPos
  | .str s => str s
  | .tok t => tok t
  | .list ts => list (literalAll ts)
  | .node k fs => node k (literalFields k.fields fs)

/-- The literal patterns of the items of a list. -/
def literalAll : List Tree → List Pattern
  | [] => []
  | t :: ts => literal t :: literalAll ts

/-- The literal patterns of the fields of a node. -/
def literalFields : List Field → List Tree → List Pattern
  | f :: fs, t :: ts => (if f.slot = .doc then any else literal t) :: literalFields fs ts
  | _, _ => []

end

/-- The first start from `first` on, out of `count`, at which `attempt` succeeds. -/
def firstStart (attempt : Nat → Option Captures) (first count : Nat) : Option (Nat × Captures) :=
  (List.range' first count).findSome? fun i => (attempt i).map (i, ·)

mutual

/-- Matches a value, adding to the given captures.  `replay bound t` tells whether a further
occurrence `t` of a metavariable agrees with its bound value. -/
def matchWith (replay : Tree → Tree → Bool) : Pattern → Tree → Captures → Option Captures
  | nil, t, c => if t.isNil then some c else none
  | node k ps, t, c =>
    match t with
    | .node l ts => if k = l then matchAll replay ps ts c else none
    | _ => none
  | list ps, t, c =>
    match t with
    | .list ts => matchAll replay ps ts c
    | _ => none
  | runs front sections, t, c =>
    match t with
    | .list ts =>
      if ts.length < front.length then none
      else
        (matchAll replay front (ts.take front.length) c).bind
          (matchSections replay ts sections front.length)
    | _ => none
  | pos p, t, c =>
    match t with
    | .pos q =>
      if p.isValid && q.isValid then some (c.bind (.pos p) (.pos q))
      else if !p.isValid && !q.isValid then some c
      else none
    | _ => none
  | anyPos, t, c =>
    match t with
    | .pos _ => some c
    | _ => none
  | str s, t, c =>
    match t with
    | .str u => if s = u then some c else none
    | _ => none
  | tok s, t, c =>
    match t with
    | .tok u => if s = u then some c else none
    | _ => none
  | doc p, t, c => some (c.bind (.doc p) (.captured t t.span))
  | any, _, c => some c
  | metavar name kind, t, c =>
    if !kind.admits t then none
    else
      match c.metavar? name with
      | some (bound, _) => if replay bound t then some c else none
      | none => some (c.bind (.metavar name) (.metavar t t.span))
  | fieldList p, t, c =>
    if t.isNil || t.isKind .fieldList then some (c.bind (.fieldList p) (.captured t t.span))
    else none
  | loop p body, t, c =>
    match t.node? with
    | some n =>
      if n.kind = .forStmt || n.kind = .rangeStmt then
        (matchWith replay body (n.get .body) c).map fun c =>
          c.bind (.loopHeader p)
            (.captured (n.without .body) ⟨n.start, (n.get .body).start⟩)
      else none
    | none => none

/-- Matches values one by one; there have to be as many as patterns. -/
def matchAll (replay : Tree → Tree → Bool) : List Pattern → List Tree → Captures → Option Captures
  | [], [], c => some c
  | p :: ps, t :: ts, c => (matchWith replay p t c).bind (matchAll replay ps ts)
  | _, _, _ => none

/-- Matches sections from the element with number `cursor` on. -/
def matchSections (replay : Tree → Tree → Bool) (ts : List Tree) :
    List (Key × List Pattern) → Nat → Captures → Option Captures
  | [], _, c => some c
  | (key, items) :: rest, cursor, c =>
    if ts.length < cursor + items.length then none
    else
      let attempt (start : Nat) : Option Captures :=
        matchAll replay items ((ts.drop start).take items.length) c
      let last := ts.length - items.length
      let found :=
        if rest.isEmpty then firstStart attempt last 1
        else firstStart attempt cursor (last - cursor + 1)
      match found with
      | none => none
      | some (start, c) =>
        let run := Binding.run ((ts.take start).drop cursor) (runSpan ts cursor start)
        matchSections replay ts rest (start + items.length) (c.bind key run)

end

/-- Whether a value spells the code that a metavariable was bound to. -/
def replays (bound t : Tree) : Bool :=
  (matchWith (fun _ _ => false) (literal bound) t .empty).isSome

/-- Matches a value, adding to the given captures. -/
def match? (p : Pattern) (t : Tree) (c : Captures) : Option Captures := matchWith replays p t c

/-- Matches the elements of a list, adding to the given captures. -/
def matchItems? (p : Pattern) (ts : List Tree) (c : Captures) : Option Captures :=
  match p with
  | list _ | runs _ _ => p.match? (.list ts) c
  | _ => none

end Pattern

end Graft
