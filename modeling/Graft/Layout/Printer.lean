import Graft.Layout.Items

/-! # Printing

A node that still stands in the source as it is, and holds no changed range, is copied.  Any other
node is printed item by item along its layout.

Between two tokens the text of the source is taken over when both were taken from the source,
nothing between them changed, and apart from blanks, semicolons and comments it holds just what the
separator asks for.  Behind a token that is not from the source, the text resumes at the end of the
last changed range, so that comments and blank lines behind a change survive — but only if a line
break there does what the separator does.  Otherwise the separator is written out.
-/

namespace Graft

/-! ### Gaps -/

/-- What is being skipped while a gap is read. -/
inductive Skipping where
  | nothing
  | lineComment
  | blockComment

/-- A text without blanks, semicolons and comments. -/
def substance : Skipping → List Char → List Char
  | _, [] => []
  | .nothing, '/' :: '/' :: cs => substance .lineComment cs
  | .nothing, '/' :: '*' :: cs => substance .blockComment cs
  | .nothing, c :: cs =>
    if isBlank c || c == ';' then substance .nothing cs else c :: substance .nothing cs
  | .lineComment, c :: cs => substance (if c == '\n' then .nothing else .lineComment) cs
  | .blockComment, '*' :: '/' :: cs => substance .nothing cs
  | .blockComment, _ :: cs => substance .blockComment cs

namespace Separator

/-- Whether the text between two tokens of the source can stand for the separator. -/
def fits (s : Separator) (gap : List Char) : Bool :=
  match s, substance .nothing gap with
  | .comma, rest => rest == [',']
  | .close, rest => rest == [] || rest == [',']
  | _, rest => rest == []

/-- Whether text of the source behind a token that is not from it can stand for the separator.  A
line break in it must not end a statement early. -/
def resumes (s : Separator) (gap : List Char) : Bool :=
  s.fits gap &&
    match s with
    | .newline | .blankLine => gap.contains '\n'
    | .semicolon => gap.contains ';' || gap.contains '\n'
    | .comma => true
    | .close => !gap.contains '\n' || substance .nothing gap == [',']
    | .space => !gap.isEmpty && !gap.contains '\n'
    | .nothing => !gap.contains '\n'

/-- A separator written out at a depth of indentation. -/
def write (s : Separator) (indent : String) (depth : Nat) : String :=
  let margin := String.join (List.replicate depth indent)
  match s with
  | nothing | close => ""
  | space => " "
  | comma => ", "
  | semicolon => "; "
  | newline => "\n" ++ margin
  | blankLine => "\n\n" ++ margin

end Separator

/-! ### The printer -/

/-- What has been printed, and how to go on. -/
structure Pen where
  out : String
  depth : Nat
  /-- Where the last item ends in the source, if it was taken from there. -/
  last : Pos
  /-- Where the last item that was taken from the source ends, whatever was printed since. -/
  anchor : Pos
  /-- What has to stand before the next item. -/
  pending : Separator

namespace Pen

/-- A pen that has printed nothing, and stands at a position of the source. -/
def start (p : Pos) : Pen := ⟨"", 0, p, .none, .nothing⟩

/-- Where the text of the source before `next` would be taken up: behind the last item, or behind
the last change since the last item that was taken from the source. -/
def resumption? (pen : Pen) (changed : SpanSet) (next : Pos) : Option Pos :=
  if pen.last.isValid then some pen.last
  else (changed.lastEndBefore? next).filter fun stop => decide (pen.anchor < stop)

/-- The text of the source before an item at `next`, if it can stand for the pending separator. -/
def sourceGap? (pen : Pen) (page : Page) (next : Pos) : Option (List Char) := do
  let src ← page.source
  guard next.isValid
  let resume ← pen.resumption? page.changed next
  guard (resume ≤ next)
  guard (!page.changed.intersects ⟨resume, next⟩)
  let text ← src.slice? ⟨resume, next⟩
  guard (if pen.last.isValid then pen.pending.fits text else pen.pending.resumes text)
  return text

/-- Prints an item; `start` is valid if it was taken from the source, where it ends at `stop`. -/
def emit (pen : Pen) (page : Page) (start stop : Pos) (text : String) : Pen :=
  let gap :=
    match pen.sourceGap? page start with
    | some gap => String.ofList gap
    | none => if pen.out.isEmpty then "" else pen.pending.write page.indent pen.depth
  { pen with
    out := pen.out ++ gap ++ text
    pending := .nothing
    last := if start.isValid then stop else .none
    anchor := if start.isValid then stop else pen.anchor }

/-- Prints a token the tree records at `p`. -/
def token (pen : Pen) (page : Page) (p : Pos) (text : String) : Pen :=
  if page.hasText p text then pen.emit page p (p.advance text.utf8ByteSize) text
  else pen.emit page .none .none text

/-- Prints an item, where `node` prints a node. -/
def item (page : Page) (node : Node → Pen → Pen) (pen : Pen) : Item → Pen
  | .gap s => { pen with pending := s }
  | .token p text => pen.token page p text
  | .tree t =>
    match t.node? with
    | some n => node n pen
    | none => pen
  | .deeper => { pen with depth := pen.depth + 1 }
  | .shallower => { pen with depth := pen.depth - 1 }

/-- Prints a node of at most the given height. -/
def node (page : Page) : Nat → Node → Pen → Pen
  | 0, _, pen => pen
  | h + 1, n, pen =>
    match page.copy? n with
    | some text => pen.emit page n.span.start n.span.stop (String.ofList text)
    | none => (Layout.items page n).foldl (item page (node page h)) pen

end Pen

/-- Prints a file that was read from `src`; only what changed is printed anew. -/
def printFile (file : Node) (src : Source) (changed : SpanSet) (style : Style) : String :=
  let page : Page := ⟨if style.keepLayout then some src else none, changed, style.indent⟩
  let pen := Pen.node page file.tree.height file (.start (.atOffset 0))
  let pen := { pen with pending := .newline }
  match pen.sourceGap? page (.atOffset (byteLength src.text)) with
  | some gap => pen.out ++ String.ofList gap
  | none => pen.out ++ "\n"

/-- Prints a value by itself; only nodes have a text. -/
def printTree (t : Tree) (style : Style) : String :=
  match t.node? with
  | some n => (Pen.node ⟨none, .empty, style.indent⟩ t.height n (.start .none)).out
  | none => ""

end Graft
