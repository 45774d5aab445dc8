import Graft.Change.SpanSet
import Graft.Text.Blank
import Graft.Text.Source
import Graft.Tree.Basic

/-! # Layouts

How each kind of node is laid out, as data.  A layout is a list of items: tokens, subtrees, and the
separators between them, which say what stands between two tokens when nothing better is known.

Only the source can tell a few things about a layout: whether a block was written on one line, and
whether a struct body is copied as it is.  So layouts are read off a node *on a page*, which holds
the source (if layout is to be kept) and the ranges that changed.
-/

namespace Graft

/-- How to print. -/
structure Style where
  /-- One level of indentation. -/
  indent : String
  /-- Whether to take over the text of the source where possible. -/
  keepLayout : Bool

/-- The default style: tabs, and the source taken over. -/
def Style.default : Style := ⟨"\t", true⟩

/-- What stands between two tokens. -/
inductive Separator where
  | nothing
  | space
  | comma
  /-- The place before a closing bracket, where a trailing comma may stand. -/
  | close
  | semicolon
  | newline
  | blankLine
  deriving DecidableEq, Inhabited

/-- A part of a layout. -/
inductive Item where
  | gap (s : Separator)
  /-- A token the tree records at `p`; nowhere for a token the tree does not record. -/
  | token (p : Pos) (text : String)
  | tree (t : Tree)
  /-- One level of indentation more. -/
  | deeper
  /-- One level of indentation less. -/
  | shallower

/-- What the printer knows besides the tree. -/
structure Page where
  /-- The source, if its text is to be taken over. -/
  source : Option Source
  changed : SpanSet
  indent : String

namespace Page

/-! ### Agreement with the source -/

/-- Whether the source has the given text at a position. -/
def hasText (page : Page) (p : Pos) (text : String) : Bool :=
  match page.source with
  | some src =>
    p.isValid && src.slice? ⟨p, p.advance text.utf8ByteSize⟩ == some text.toList
  | none => false

/-- Whether the source has a bracket at a position. -/
def hasBracket (page : Page) (p : Pos) : Bool :=
  match page.source with
  | some src =>
    match src.slice? ⟨p, p.advance 1⟩ with
    | some [c] => c == '(' || c == ')' || c == '\x7b' || c == '\x7d'
    | _ => false
  | none => false

/-- Whether the token a position field records stands where it says.  A token that is not recorded
agrees if it may be missing or has no text. -/
def tokenAgrees (page : Page) (fields : List Tree) (w : Width) (p : Pos) : Bool :=
  if p.isValid then
    match Tree.tokenText fields w with
    | some text => page.hasText p text
    | none => page.hasBracket p
  else
    match w with
    | .token _ => false
    | .optional _ => true
    | .bracket => true
    | .ofField _ => Tree.tokenText fields w == some ""

mutual

/-- Whether every token of a value stands in the source where the tree says. -/
def agrees (page : Page) : Tree → Bool
  | .list ts => agreesItems page ts
  | .node k fs => agreesFields page fs k.fields fs
  | _ => true

/-- Whether the tokens of some fields agree with the source, for a node whose field values are
`all`. -/
def agreesFields (page : Page) (all : List Tree) : List Field → List Tree → Bool
  | f :: fs, t :: ts =>
    (match f.slot, t with
      | .pos w, .pos p => page.tokenAgrees all w p
      | _, _ => agrees page t)
      && agreesFields page all fs ts
  | _, _ => true

/-- Whether the items of a list are nodes whose tokens agree with the source. -/
def agreesItems (page : Page) : List Tree → Bool
  | [] => true
  | t :: ts => t.node?.isSome && agrees page t && agreesItems page ts

end

/-- The text of a node in the source, if it can be copied: it holds no changed range, and the source
still says what the tree says. -/
def copy? (page : Page) (n : Node) : Option (List Char) :=
  match page.source with
  | none => none
  | some src =>
    let s := n.span
    if s.isValid && !s.isEmpty && !page.changed.intersects s && page.agrees n then src.slice? s
    else none

/-- Whether two positions stand on one line of the source. -/
def sameLine (page : Page) (p q : Pos) : Bool :=
  match page.source with
  | some src => p.isValid && q.isValid && src.lines.line? p == src.lines.line? q
  | none => false

end Page

/-! ### Layouts -/

namespace Item

/-- A token the tree does not record. -/
def bare (text : String) : Item := token .none text

/-- Trees with a separator between. -/
def separated (s : Separator) : List Tree → List Item
  | [] => []
  | [t] => [tree t]
  | t :: ts => tree t :: gap s :: separated s ts

/-- Trees with a separator before each. -/
def preceded (s : Separator) (ts : List Tree) : List Item := ts.flatMap fun t => [gap s, tree t]

/-- The given items, if a value is there. -/
def ifPresent (t : Tree) (items : List Item) : List Item := if t.isNil then [] else items

end Item

namespace Layout

open Item

/-- The spelling of the token in a field. -/
def spelling (n : Node) (l : Label) (missing : String) : String :=
  match n.tok? l with
  | some t => t.text
  | none => missing

/-- A token recorded by the position field `l` of a node. -/
def mark (n : Node) (l : Label) (text : String) : Item := token (n.posOf l) text

/-- The tree in a field. -/
def child (n : Node) (l : Label) : Item := tree (n.get l)

/-- The comment above a node. -/
def doc (n : Node) : List Item := ifPresent (n.get .doc) [child n .doc, gap .newline]

/-- Parameters and results of a function type. -/
def signature (type : Node) : List Item :=
  (match type.node? .params with
    | some params => [tree params]
    | none => [bare "(", bare ")"])
    ++ (match type.node? .results with
      | some results => [gap .space, tree results]
      | none => [])

/-- Whether a field list is a single result without name and parentheses. -/
def isBareResult (n : Node) : Bool :=
  !(n.posOf .opening).isValid &&
    match n.list .list with
    | [f] => (f.node?.map fun f => (f.list .names).isEmpty).getD false
    | _ => false

/-- A field list in parentheses; a single result without a name goes without them. -/
def paramList (n : Node) : List Item :=
  if isBareResult n then separated .nothing (n.list .list)
  else
    [mark n .opening "("] ++ separated .comma (n.list .list) ++ [gap .close, mark n .closing ")"]

/-- The fields of a struct or interface in braces. -/
def bracedFields (page : Page) : Option Node → List Item
  | none => [bare "\x7b", bare "\x7d"]
  | some l =>
    if (page.copy? l).isSome then [gap .space, tree l]
    else if (l.list .list).isEmpty then [mark l .opening "\x7b", mark l .closing "\x7d"]
    else
      [gap .space, mark l .opening "\x7b", deeper] ++ preceded .newline (l.list .list)
        ++ [shallower, gap .newline, mark l .closing "\x7d"]

/-- A block, with its statements indented or not.  Statements that the source has on one line stay
on one line, and an empty block that it has on several stays on several. -/
def block (page : Page) (indented : Bool) (n : Node) : List Item :=
  let lbrace := n.posOf .lbrace
  let rbrace := n.posOf .rbrace
  let oneLine := page.sameLine lbrace rbrace
  let stmts := n.list .list
  let inside :=
    if stmts.isEmpty then
      if page.source.isSome && lbrace.isValid && rbrace.isValid && !oneLine then [gap .newline]
      else []
    else
      let (enter, leave) := if indented then ([deeper], [shallower]) else ([], [])
      if oneLine then enter ++ gap .space :: separated .semicolon stmts ++ leave ++ [gap .space]
      else enter ++ preceded .newline stmts ++ leave ++ [gap .newline]
  [mark n .lbrace "\x7b"] ++ inside ++ [mark n .rbrace "\x7d"]

/-- A field: its names, its type and perhaps a tag.  A method goes without a space before its
parameters. -/
def field (n : Node) : List Item :=
  let names := n.list .names
  let type := n.get .type
  let plain := (if names.isEmpty then [] else [gap .space]) ++ [tree type]
  let typeItems :=
    match type.node? with
    | some t =>
      if t.kind = .funcType && !(t.posOf .func).isValid && !names.isEmpty then signature t
      else plain
    | none => plain
  doc n ++ separated .comma names ++ typeItems
    ++ ifPresent (n.get .tag) [gap .space, child n .tag]

/-- The header of a loop with clauses, behind its keyword. -/
def loopClauses (n : Node) : List Item :=
  if !(n.get .init).isNil || !(n.get .post).isNil then
    [gap .space, child n .init, gap .semicolon, child n .cond, gap .semicolon, child n .post]
  else ifPresent (n.get .cond) [gap .space, child n .cond]

/-- The header of a loop over a range, behind its keyword. -/
def rangeTargets (n : Node) : List Item :=
  ifPresent (n.get .key)
    ([child n .key] ++ ifPresent (n.get .value) [gap .comma, child n .value]
      ++ [gap .space, mark n .tokPos (spelling n .tok ":="), gap .space])

/-- The clauses of a switch, or its whole body where it is copied. -/
def switchBody (page : Page) (n : Node) : List Item :=
  match n.node? .body with
  | some body => if (page.copy? body).isSome then [tree body] else block page false body
  | none => []

/-- The specifications of a declaration, in parentheses unless there is one without them. -/
def specs (n : Node) : List Item :=
  let specs := n.list .specs
  if (n.posOf .lparen).isValid || specs.length != 1 then
    [mark n .lparen "(", deeper] ++ preceded .newline specs
      ++ [shallower, gap (if specs.isEmpty then .nothing else .newline), mark n .rparen ")"]
  else separated .nothing specs

/-- The layout of a node. -/
def items (page : Page) (n : Node) : List Item :=
  match n.kind with
  | .ident => [mark n .namePos ((n.str? .name).getD "")]
  | .basicLit => [mark n .valuePos ((n.str? .value).getD "")]
  | .compositeLit =>
    [child n .type, mark n .lbrace "\x7b"] ++ separated .comma (n.list .elts)
      ++ [gap .close, mark n .rbrace "\x7d"]
  | .funcLit => [child n .type, gap .space, child n .body]
  | .parenExpr => [mark n .lparen "(", child n .x, mark n .rparen ")"]
  | .selectorExpr => [child n .x, bare ".", child n .sel]
  | .indexExpr => [child n .x, mark n .lbrack "[", child n .index, mark n .rbrack "]"]
  | .sliceExpr =>
    [child n .x, mark n .lbrack "[", child n .low, bare ":", child n .high, mark n .rbrack "]"]
  | .typeAssertExpr => [child n .x, bare ".", mark n .lparen "(", child n .type, mark n .rparen ")"]
  | .starExpr => [mark n .star "*", child n .x]
  | .unaryExpr => [mark n .opPos (spelling n .op ""), child n .x]
  | .binaryExpr =>
    [child n .x, gap .space, mark n .opPos (spelling n .op ""), gap .space, child n .y]
  | .callExpr =>
    [child n .fun_, mark n .lparen "("] ++ separated .comma (n.list .args)
      ++ (if (n.posOf .ellipsis).isValid then [mark n .ellipsis "..."] else [])
      ++ [gap .close, mark n .rparen ")"]
  | .keyValueExpr => [child n .key, mark n .colon ":", gap .space, child n .value]
  | .arrayType => [mark n .lbrack "[", child n .len, bare "]", child n .elt]
  | .mapType => [mark n .map "map", bare "[", child n .key, bare "]", child n .value]
  | .funcType => mark n .func "func" :: signature n
  | .structType => mark n .struct "struct" :: bracedFields page (n.node? .fields)
  | .interfaceType => mark n .interface "interface" :: bracedFields page (n.node? .methods)
  | .ellipsis => [mark n .ellipsis "...", child n .elt]
  | .field => field n
  | .fieldList => paramList n
  | .declStmt | .exprStmt => [tree (n.fields.head?.getD .nil)]
  | .incDecStmt => [child n .x, mark n .tokPos (spelling n .tok "")]
  | .assignStmt =>
    separated .comma (n.list .lhs) ++ [gap .space, mark n .tokPos (spelling n .tok ""), gap .space]
      ++ separated .comma (n.list .rhs)
  | .goStmt => [mark n .go "go", gap .space, child n .call]
  | .deferStmt => [mark n .defer "defer", gap .space, child n .call]
  | .returnStmt =>
    mark n .return_ "return" ::
      (if (n.list .results).isEmpty then []
        else gap .space :: separated .comma (n.list .results))
  | .branchStmt =>
    mark n .tokPos (spelling n .tok "") :: ifPresent (n.get .label) [gap .space, child n .label]
  | .blockStmt => block page true n
  | .ifStmt =>
    [mark n .if_ "if", gap .space] ++ ifPresent (n.get .init) [child n .init, gap .semicolon]
      ++ [child n .cond, gap .space, child n .body]
      ++ ifPresent (n.get .else_) [gap .space, bare "else", gap .space, child n .else_]
  | .caseClause =>
    [mark n .case (spelling n .tok "case")]
      ++ (if (n.list .list).isEmpty then [] else gap .space :: separated .comma (n.list .list))
      ++ [mark n .colon ":", deeper] ++ preceded .newline (n.list .body) ++ [shallower]
  | .switchStmt =>
    [mark n .switch "switch"]
      ++ ifPresent (n.get .init) [gap .space, child n .init, gap .semicolon]
      ++ ifPresent (n.get .tag) [gap .space, child n .tag] ++ [gap .space] ++ switchBody page n
  | .forStmt => [mark n .for_ "for"] ++ loopClauses n ++ [gap .space, child n .body]
  | .rangeStmt =>
    [mark n .for_ "for", gap .space] ++ rangeTargets n
      ++ [mark n .range "range", gap .space, child n .x, gap .space, child n .body]
  | .importSpec => doc n ++ ifPresent (n.get .name) [child n .name, gap .space] ++ [child n .path]
  | .valueSpec =>
    doc n ++ separated .comma (n.list .names) ++ ifPresent (n.get .type) [gap .space, child n .type]
      ++ (if (n.list .values).isEmpty then []
        else [gap .space, bare "=", gap .space] ++ separated .comma (n.list .values))
  | .typeSpec =>
    doc n ++ [child n .name, gap .space]
      ++ (if (n.posOf .assign).isValid then [mark n .assign "=", gap .space] else [])
      ++ [child n .type]
  | .genDecl => doc n ++ [mark n .tokPos (spelling n .tok "var"), gap .space] ++ specs n
  | .funcDecl =>
    doc n ++ [mark n .func "func", gap .space]
      ++ (match n.node? .recv with
        | some recv => [tree recv, gap .space]
        | none => [])
      ++ [child n .name]
      ++ (match n.node? .type with
        | some type => signature type
        | none => [])
      ++ ifPresent (n.get .body) [gap .space, child n .body]
  | .file =>
    doc n ++ [mark n .package "package", gap .space, child n .name]
      ++ preceded .blankLine (n.list .decls)
  | .comment => [mark n .slash ((n.str? .text).getD "")]
  | .commentGroup => separated .newline (n.list .list)
  | .dots => [mark n .dots "..."]

end Layout

end Graft
