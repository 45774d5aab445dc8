import Graft.Text.Position
import Graft.Tree.Kind

/-! # Trees

One type holds whatever a field of a node may hold: nothing, a position, a string, a token, a list
or a node.  A `Node` is the pair of a kind and its field values in schema order.  Nothing forces a
value to fit its slot — edits may put anything anywhere — so the typed accessors (`Node.node?`,
`Node.list`, `Node.str?`, `Node.tok?`, `Node.posOf`) answer with nothing where a value does not fit,
and `Slot.accepts` says when it does.

The place of a tree is read off its positions: `Tree.pos` is the first one in source order and
`Tree.stop` lies behind the last token.  Two trees are the **same code** (`Tree.sameCode`) when they
differ in positions only, where presence of a token still counts.
-/

namespace Graft

/-- The values of fields. -/
inductive Tree where
  | nil
  | pos (p : Pos)
  | str (s : String)
  | tok (t : Token)
  | list (items : List Tree)
  | node (kind : Kind) (fields : List Tree)
  deriving Inhabited

/-- A node by itself: its kind and its field values in schema order. -/
structure Node where
  kind : Kind
  fields : List Tree
  deriving Inhabited

/-- A node as a value. -/
def Node.tree (n : Node) : Tree := .node n.kind n.fields

instance : Coe Node Tree := ⟨Node.tree⟩

namespace Tree

/-- Whether there is no value. -/
def isNil : Tree → Bool
  | nil => true
  | _ => false

/-- The node a value is. -/
def node? : Tree → Option Node
  | node k fs => some ⟨k, fs⟩
  | _ => none

/-- The items of a list, none for any other value. -/
def items : Tree → List Tree
  | list ts => ts
  | _ => []

/-- The position a value is; nowhere for any other value. -/
def asPos : Tree → Pos
  | pos p => p
  | _ => .none

/-- The kind of the node a value is. -/
def kind? : Tree → Option Kind
  | node k _ => some k
  | _ => none

/-- Whether the value is a node of the given kind. -/
def isKind (t : Tree) (k : Kind) : Bool := t.kind? == some k

/-! ### Building nodes -/

/-- An identifier. -/
def ident (p : Pos) (name : String) : Tree := node .ident [pos p, str name]

/-- A wildcard. -/
def dots (p : Pos) : Tree := node .dots [pos p]

/-! ### Comparison -/

mutual

/-- Whether two values agree, where `samePos` compares positions. -/
def agreeBy (samePos : Pos → Pos → Bool) : Tree → Tree → Bool
  | nil, nil => true
  | pos p, pos q => samePos p q
  | str s, str t => s == t
  | tok s, tok t => s == t
  | list xs, list ys => agreeAllBy samePos xs ys
  | node k xs, node l ys => k == l && agreeAllBy samePos xs ys
  | _, _ => false

/-- Whether two lists of values agree item by item. -/
def agreeAllBy (samePos : Pos → Pos → Bool) : List Tree → List Tree → Bool
  | [], [] => true
  | x :: xs, y :: ys => agreeBy samePos x y && agreeAllBy samePos xs ys
  | _, _ => false

end

/-- Whether two values are equal, positions included. -/
def beq : Tree → Tree → Bool := agreeBy (· == ·)

instance : BEq Tree := ⟨beq⟩

/-- Whether two values spell the same code, wherever they stand: a position counts only for whether
its token is there. -/
def sameCode : Tree → Tree → Bool := agreeBy (fun p q => p.isValid == q.isValid)

/-! ### Place -/

mutual

/-- The first position of a value in source order. -/
def start : Tree → Pos
  | pos p => p
  | list ts => startAll ts
  | node _ fs => startAll fs
  | _ => .none

/-- The first position of a list of values in source order. -/
def startAll : List Tree → Pos
  | [] => .none
  | t :: ts => if t.start.isValid then t.start else startAll ts

end

mutual

/-- The positions recorded in a value, in source order. -/
def positions : Tree → List Pos
  | pos p => if p.isValid then [p] else []
  | list ts => positionsAll ts
  | node _ fs => positionsAll fs
  | _ => []

/-- The positions recorded in a list of values, in source order. -/
def positionsAll : List Tree → List Pos
  | [] => []
  | t :: ts => t.positions ++ positionsAll ts

end

/-- The text of the token a position field of a node records; nothing for a bracket, whose shape the
schema leaves open. -/
def tokenText (fields : List Tree) : Width → Option String
  | .token s => some s
  | .optional s => some s
  | .bracket => none
  | .ofField i =>
    match fields[i]? with
    | some (str s) => some s
    | some (tok .illegal) => some ""
    | some (tok t) => some t.text
    | _ => some ""

/-- The number of bytes of the token a position field of a node records. -/
def tokenWidth (fields : List Tree) (w : Width) : Nat :=
  match tokenText fields w with
  | some s => s.utf8ByteSize
  | none => 1

mutual

/-- The position just behind the last token of a value. -/
def stop : Tree → Pos
  | list ts => stopAll ts
  | node k fs => stopFields fs k.fields fs
  | _ => .none

/-- The position behind the last token of a list of values. -/
def stopAll : List Tree → Pos
  | [] => .none
  | t :: ts => max t.stop (stopAll ts)

/-- The position behind the last token among some fields of a node whose field values are `all`. -/
def stopFields (all : List Tree) : List Field → List Tree → Pos
  | f :: fs, t :: ts =>
    let here :=
      match f.slot, t with
      | .pos w, pos p => p.advance (tokenWidth all w)
      | _, _ => t.stop
    max here (stopFields all fs ts)
  | _, _ => .none

end

/-- The span of a value. -/
def span (t : Tree) : Span := ⟨t.start, t.stop⟩

/-! ### Descendants -/

mutual

/-- The nodes of a value, parents before their children, in source order. -/
def nodes : Tree → List Node
  | list ts => nodesAll ts
  | node k fs => ⟨k, fs⟩ :: nodesAll fs
  | _ => []

/-- The nodes of a list of values. -/
def nodesAll : List Tree → List Node
  | [] => []
  | t :: ts => t.nodes ++ nodesAll ts

end

mutual

/-- The number of levels of a value. -/
def height : Tree → Nat
  | list ts => heightAll ts + 1
  | node _ fs => heightAll fs + 1
  | _ => 0

/-- The number of levels of the highest of a list of values. -/
def heightAll : List Tree → Nat
  | [] => 0
  | t :: ts => max t.height (heightAll ts)

end

mutual

/-- The value with every position inside replaced by what `f` makes of it. -/
def mapPos (f : Pos → Pos) : Tree → Tree
  | pos p => pos (f p)
  | list ts => list (mapPosAll f ts)
  | node k fs => node k (mapPosAll f fs)
  | t => t

/-- A list of values with every position inside replaced by what `f` makes of it. -/
def mapPosAll (f : Pos → Pos) : List Tree → List Tree
  | [] => []
  | t :: ts => t.mapPos f :: mapPosAll f ts

end

end Tree

/-! ### Slots -/

/-- Whether a value may stand in a slot. -/
def Slot.accepts : Slot → Tree → Bool
  | .pos _, .pos _ => true
  | .str, .str _ => true
  | .token, .tok _ => true
  | .node _, .nil => true
  | .doc, .nil => true
  | .node c, .node k _ => k.isA c
  | .doc, .node k _ => k == .commentGroup
  | .list c, .list ts => ts.all fun t => (t.kind?.map (·.isA c)).getD false
  | _, _ => false

mutual

/-- Whether every node of a value has the fields its schema lists, each accepted by its slot. -/
def Tree.conforms : Tree → Bool
  | .list ts => Tree.conformsAll ts
  | .node k fs =>
    fs.length == k.fields.length && (k.fields.zip fs).all (fun (f, t) => f.slot.accepts t)
      && Tree.conformsAll fs
  | _ => true

/-- Whether every node of a list of values conforms to the schema. -/
def Tree.conformsAll : List Tree → Bool
  | [] => true
  | t :: ts => t.conforms && Tree.conformsAll ts

end

/-! ### Field access -/

namespace Node

/-- The value of a field; nothing for a field the kind does not have. -/
def get (n : Node) (l : Label) : Tree :=
  match n.kind.indexOf? l with
  | some i => n.fields[i]?.getD .nil
  | none => .nil

/-- The node with another value in a field; unchanged for a field the kind does not have. -/
def set (n : Node) (l : Label) (t : Tree) : Node :=
  match n.kind.indexOf? l with
  | some i => { n with fields := n.fields.set i t }
  | none => n

/-- The node in a field. -/
def node? (n : Node) (l : Label) : Option Node := (n.get l).node?

/-- The items of the list in a field. -/
def list (n : Node) (l : Label) : List Tree := (n.get l).items

/-- The string in a field. -/
def str? (n : Node) (l : Label) : Option String :=
  match n.get l with
  | .str s => some s
  | _ => none

/-- The token in a field. -/
def tok? (n : Node) (l : Label) : Option Token :=
  match n.get l with
  | .tok t => some t
  | _ => none

/-- The position in a field. -/
def posOf (n : Node) (l : Label) : Pos := (n.get l).asPos

/-- The name of an identifier. -/
def name? (n : Node) : Option String := if n.kind = .ident then n.str? .name else none

/-- The first position of a node in source order. -/
def start (n : Node) : Pos := n.tree.start

/-- The position behind the last token of a node. -/
def stop (n : Node) : Pos := n.tree.stop

/-- The span of a node. -/
def span (n : Node) : Span := n.tree.span

instance : BEq Node := ⟨fun a b => a.tree == b.tree⟩

end Node

end Graft
