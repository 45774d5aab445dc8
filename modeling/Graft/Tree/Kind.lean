import Graft.Token.Basic

/-! # Node kinds and their schema

Every kind of node has a fixed list of typed fields in source order.  Matching, substitution,
comparison with an earlier version and printing read this schema instead of knowing each kind, so a
new kind is a new row here.

A field of type `Slot.pos` records where one token of the node stands; its `Width` says which token
that is, and so how many bytes it covers.
-/

namespace Graft

/-- Where a node may stand.  A slot asks for one category; a kind may belong to several. -/
inductive Category where
  | expr | ident | stmt | block | clause | decl | spec | field | fieldList | funcType
  | comment | commentGroup | file
  deriving DecidableEq, Inhabited

/-- All categories, in the order of their numbers. -/
def Category.all : List Category :=
  [expr, ident, stmt, block, clause, decl, spec, field, fieldList, funcType, comment, commentGroup,
    file]

/-- The kinds of nodes. -/
inductive Kind where
  | ident | basicLit | compositeLit | funcLit | parenExpr | selectorExpr | indexExpr | sliceExpr
  | typeAssertExpr | starExpr | unaryExpr | binaryExpr | callExpr | keyValueExpr
  | arrayType | mapType | funcType | structType | interfaceType | ellipsis
  | field | fieldList
  | declStmt | exprStmt | incDecStmt | assignStmt | goStmt | deferStmt | returnStmt | branchStmt
  | blockStmt | ifStmt | caseClause | switchStmt | forStmt | rangeStmt
  | importSpec | valueSpec | typeSpec | genDecl | funcDecl | file
  | comment | commentGroup
  /-- The wildcard `...` of patterns. -/
  | dots
  deriving DecidableEq, Inhabited

namespace Kind

/-- The name of a kind in output. -/
def name : Kind → String
  | ident => "Ident"
  | basicLit => "BasicLit"
  | compositeLit => "CompositeLit"
  | funcLit => "FuncLit"
  | parenExpr => "ParenExpr"
  | selectorExpr => "SelectorExpr"
  | indexExpr => "IndexExpr"
  | sliceExpr => "SliceExpr"
  | typeAssertExpr => "TypeAssertExpr"
  | starExpr => "StarExpr"
  | unaryExpr => "UnaryExpr"
  | binaryExpr => "BinaryExpr"
  | callExpr => "CallExpr"
  | keyValueExpr => "KeyValueExpr"
  | arrayType => "ArrayType"
  | mapType => "MapType"
  | funcType => "FuncType"
  | structType => "StructType"
  | interfaceType => "InterfaceType"
  | ellipsis => "Ellipsis"
  | field => "Field"
  | fieldList => "FieldList"
  | declStmt => "DeclStmt"
  | exprStmt => "ExprStmt"
  | incDecStmt => "IncDecStmt"
  | assignStmt => "AssignStmt"
  | goStmt => "GoStmt"
  | deferStmt => "DeferStmt"
  | returnStmt => "ReturnStmt"
  | branchStmt => "BranchStmt"
  | blockStmt => "BlockStmt"
  | ifStmt => "IfStmt"
  | caseClause => "CaseClause"
  | switchStmt => "SwitchStmt"
  | forStmt => "ForStmt"
  | rangeStmt => "RangeStmt"
  | importSpec => "ImportSpec"
  | valueSpec => "ValueSpec"
  | typeSpec => "TypeSpec"
  | genDecl => "GenDecl"
  | funcDecl => "FuncDecl"
  | file => "File"
  | comment => "Comment"
  | commentGroup => "CommentGroup"
  | dots => "Dots"

/-- All kinds. -/
def all : List Kind :=
  [ident, basicLit, compositeLit, funcLit, parenExpr, selectorExpr, indexExpr, sliceExpr,
    typeAssertExpr, starExpr, unaryExpr, binaryExpr, callExpr, keyValueExpr, arrayType, mapType,
    funcType, structType, interfaceType, ellipsis, field, fieldList,
    declStmt, exprStmt, incDecStmt, assignStmt, goStmt, deferStmt, returnStmt, branchStmt,
    blockStmt, ifStmt, caseClause, switchStmt, forStmt, rangeStmt,
    importSpec, valueSpec, typeSpec, genDecl, funcDecl, file, comment, commentGroup, dots]

/-- The kind with the given name. -/
def ofName? (s : String) : Option Kind := all.find? (·.name == s)

/-- The categories a kind belongs to.  A wildcard may stand anywhere. -/
def categories : Kind → List Category
  | ident => [.expr, .ident]
  | funcType => [.expr, .funcType]
  | basicLit | compositeLit | funcLit | parenExpr | selectorExpr | indexExpr | sliceExpr
  | typeAssertExpr | starExpr | unaryExpr | binaryExpr | callExpr | keyValueExpr | arrayType
  | mapType | structType | interfaceType | ellipsis => [.expr]
  | field => [.field]
  | fieldList => [.fieldList]
  | blockStmt => [.stmt, .block]
  | caseClause => [.stmt, .clause]
  | declStmt | exprStmt | incDecStmt | assignStmt | goStmt | deferStmt | returnStmt | branchStmt
  | ifStmt | switchStmt | forStmt | rangeStmt => [.stmt]
  | importSpec | valueSpec | typeSpec => [.spec]
  | genDecl | funcDecl => [.decl]
  | file => [.file]
  | comment => [.comment]
  | commentGroup => [.commentGroup]
  | dots => Category.all

/-- Whether a node of the kind may stand where the category is asked for. -/
def isA (k : Kind) (c : Category) : Bool := k.categories.contains c

end Kind

/-- The names of fields. -/
inductive Label where
  | namePos | name | valuePos | kind | value | type | lbrace | elts | rbrace | body | lparen | x
  | rparen | sel | lbrack | index | rbrack | low | high | star | opPos | op | y | fun_ | args
  | ellipsis | key | colon | len | elt | map | func | params | results | struct | fields | interface
  | methods | doc | names | tag | opening | list | closing | decl | tokPos | tok | lhs | rhs | go
  | call | defer | return_ | label | if_ | init | cond | else_ | case | switch | for_ | post | range
  | path | values | assign | specs | recv | package | decls | comments | slash | text | dots
  deriving DecidableEq, Inhabited

namespace Label

/-- The name of a field in output. -/
def spelling : Label → String
  | namePos => "NamePos"
  | name => "Name"
  | valuePos => "ValuePos"
  | kind => "Kind"
  | value => "Value"
  | type => "Type"
  | lbrace => "Lbrace"
  | elts => "Elts"
  | rbrace => "Rbrace"
  | body => "Body"
  | lparen => "Lparen"
  | x => "X"
  | rparen => "Rparen"
  | sel => "Sel"
  | lbrack => "Lbrack"
  | index => "Index"
  | rbrack => "Rbrack"
  | low => "Low"
  | high => "High"
  | star => "Star"
  | opPos => "OpPos"
  | op => "Op"
  | y => "Y"
  | fun_ => "Fun"
  | args => "Args"
  | ellipsis => "Ellipsis"
  | key => "Key"
  | colon => "Colon"
  | len => "Len"
  | elt => "Elt"
  | map => "Map"
  | func => "Func"
  | params => "Params"
  | results => "Results"
  | struct => "Struct"
  | fields => "Fields"
  | interface => "Interface"
  | methods => "Methods"
  | doc => "Doc"
  | names => "Names"
  | tag => "Tag"
  | opening => "Opening"
  | list => "List"
  | closing => "Closing"
  | decl => "Decl"
  | tokPos => "TokPos"
  | tok => "Tok"
  | lhs => "Lhs"
  | rhs => "Rhs"
  | go => "Go"
  | call => "Call"
  | defer => "Defer"
  | return_ => "Return"
  | label => "Label"
  | if_ => "If"
  | init => "Init"
  | cond => "Cond"
  | else_ => "Else"
  | case => "Case"
  | switch => "Switch"
  | for_ => "For"
  | post => "Post"
  | range => "Range"
  | path => "Path"
  | values => "Values"
  | assign => "Assign"
  | specs => "Specs"
  | recv => "Recv"
  | package => "Package"
  | decls => "Decls"
  | comments => "Comments"
  | slash => "Slash"
  | text => "Text"
  | dots => "Dots"

end Label

/-- Which token a position field records. -/
inductive Width where
  /-- A token that is always there. -/
  | token (text : String)
  /-- A token that may be missing, and then has no position. -/
  | optional (text : String)
  /-- A bracket whose shape the parent decides. -/
  | bracket
  /-- The string or token in the field with this number. -/
  | ofField (i : Nat)
  deriving DecidableEq

/-- The types of fields. -/
inductive Slot where
  | pos (w : Width)
  | str
  | token
  | node (c : Category)
  | list (c : Category)
  /-- The comment above a node: carried along, and no part of what the node means. -/
  | doc
  deriving DecidableEq

/-- A field of a node kind. -/
structure Field where
  label : Label
  slot : Slot
  deriving DecidableEq

namespace Kind

/-- A field that records an ever-present token. -/
def fixed (l : Label) (text : String) : Field := ⟨l, .pos (.token text)⟩

/-- A field that records a token which may be missing. -/
def maybe (l : Label) (text : String) : Field := ⟨l, .pos (.optional text)⟩

/-- A field that records the token spelled by field number `i`. -/
def spelled (l : Label) (i : Nat) : Field := ⟨l, .pos (.ofField i)⟩

/-- The field with the comment above a node. -/
def docField : Field := ⟨.doc, .doc⟩

/-- The schema: the fields of each kind in source order. -/
def fields : Kind → List Field
  | ident => [spelled .namePos 1, ⟨.name, .str⟩]
  | basicLit => [spelled .valuePos 2, ⟨.kind, .token⟩, ⟨.value, .str⟩]
  | compositeLit =>
    [⟨.type, .node .expr⟩, fixed .lbrace "\x7b", ⟨.elts, .list .expr⟩, fixed .rbrace "\x7d"]
  | funcLit => [⟨.type, .node .funcType⟩, ⟨.body, .node .block⟩]
  | parenExpr => [fixed .lparen "(", ⟨.x, .node .expr⟩, fixed .rparen ")"]
  | selectorExpr => [⟨.x, .node .expr⟩, ⟨.sel, .node .ident⟩]
  | indexExpr => [⟨.x, .node .expr⟩, fixed .lbrack "[", ⟨.index, .node .expr⟩, fixed .rbrack "]"]
  | sliceExpr =>
    [⟨.x, .node .expr⟩, fixed .lbrack "[", ⟨.low, .node .expr⟩, ⟨.high, .node .expr⟩,
      fixed .rbrack "]"]
  | typeAssertExpr =>
    [⟨.x, .node .expr⟩, fixed .lparen "(", ⟨.type, .node .expr⟩, fixed .rparen ")"]
  | starExpr => [fixed .star "*", ⟨.x, .node .expr⟩]
  | unaryExpr => [spelled .opPos 1, ⟨.op, .token⟩, ⟨.x, .node .expr⟩]
  | binaryExpr => [⟨.x, .node .expr⟩, spelled .opPos 2, ⟨.op, .token⟩, ⟨.y, .node .expr⟩]
  | callExpr =>
    [⟨.fun_, .node .expr⟩, fixed .lparen "(", ⟨.args, .list .expr⟩, maybe .ellipsis "...",
      fixed .rparen ")"]
  | keyValueExpr => [⟨.key, .node .expr⟩, fixed .colon ":", ⟨.value, .node .expr⟩]
  | arrayType => [fixed .lbrack "[", ⟨.len, .node .expr⟩, ⟨.elt, .node .expr⟩]
  | mapType => [fixed .map "map", ⟨.key, .node .expr⟩, ⟨.value, .node .expr⟩]
  | funcType => [maybe .func "func", ⟨.params, .node .fieldList⟩, ⟨.results, .node .fieldList⟩]
  | structType => [fixed .struct "struct", ⟨.fields, .node .fieldList⟩]
  | interfaceType => [fixed .interface "interface", ⟨.methods, .node .fieldList⟩]
  | ellipsis => [fixed .ellipsis "...", ⟨.elt, .node .expr⟩]
  | field => [docField, ⟨.names, .list .ident⟩, ⟨.type, .node .expr⟩, ⟨.tag, .node .expr⟩]
  | fieldList => [⟨.opening, .pos .bracket⟩, ⟨.list, .list .field⟩, ⟨.closing, .pos .bracket⟩]
  | declStmt => [⟨.decl, .node .decl⟩]
  | exprStmt => [⟨.x, .node .expr⟩]
  | incDecStmt => [⟨.x, .node .expr⟩, spelled .tokPos 2, ⟨.tok, .token⟩]
  | assignStmt => [⟨.lhs, .list .expr⟩, spelled .tokPos 2, ⟨.tok, .token⟩, ⟨.rhs, .list .expr⟩]
  | goStmt => [fixed .go "go", ⟨.call, .node .expr⟩]
  | deferStmt => [fixed .defer "defer", ⟨.call, .node .expr⟩]
  | returnStmt => [fixed .return_ "return", ⟨.results, .list .expr⟩]
  | branchStmt => [spelled .tokPos 1, ⟨.tok, .token⟩, ⟨.label, .node .ident⟩]
  | blockStmt => [fixed .lbrace "\x7b", ⟨.list, .list .stmt⟩, fixed .rbrace "\x7d"]
  | ifStmt =>
    [fixed .if_ "if", ⟨.init, .node .stmt⟩, ⟨.cond, .node .expr⟩, ⟨.body, .node .block⟩,
      ⟨.else_, .node .stmt⟩]
  | caseClause =>
    [spelled .case 1, ⟨.tok, .token⟩, ⟨.list, .list .expr⟩, fixed .colon ":", ⟨.body, .list .stmt⟩]
  | switchStmt =>
    [fixed .switch "switch", ⟨.init, .node .stmt⟩, ⟨.tag, .node .expr⟩, ⟨.body, .node .block⟩]
  | forStmt =>
    [fixed .for_ "for", ⟨.init, .node .stmt⟩, ⟨.cond, .node .expr⟩, ⟨.post, .node .stmt⟩,
      ⟨.body, .node .block⟩]
  | rangeStmt =>
    [fixed .for_ "for", ⟨.key, .node .expr⟩, ⟨.value, .node .expr⟩, spelled .tokPos 4,
      ⟨.tok, .token⟩, fixed .range "range", ⟨.x, .node .expr⟩, ⟨.body, .node .block⟩]
  | importSpec => [docField, ⟨.name, .node .ident⟩, ⟨.path, .node .expr⟩]
  | valueSpec => [docField, ⟨.names, .list .ident⟩, ⟨.type, .node .expr⟩, ⟨.values, .list .expr⟩]
  | typeSpec => [docField, ⟨.name, .node .ident⟩, maybe .assign "=", ⟨.type, .node .expr⟩]
  | genDecl =>
    [docField, spelled .tokPos 2, ⟨.tok, .token⟩, maybe .lparen "(", ⟨.specs, .list .spec⟩,
      maybe .rparen ")"]
  | funcDecl =>
    [docField, maybe .func "func", ⟨.recv, .node .fieldList⟩, ⟨.name, .node .ident⟩,
      ⟨.type, .node .funcType⟩, ⟨.body, .node .block⟩]
  | file =>
    [docField, fixed .package "package", ⟨.name, .node .ident⟩, ⟨.decls, .list .decl⟩,
      ⟨.comments, .list .commentGroup⟩]
  | comment => [spelled .slash 1, ⟨.text, .str⟩]
  | commentGroup => [⟨.list, .list .comment⟩]
  | dots => [fixed .dots "..."]

/-- The number of the field with the given name. -/
def indexOf? (k : Kind) (l : Label) : Option Nat := k.fields.findIdx? (·.label == l)

/-- The field of the kind whose name is spelled `s`. -/
def label? (k : Kind) (s : String) : Option Label :=
  (k.fields.find? (·.label.spelling == s)).map (·.label)

end Kind

end Graft
