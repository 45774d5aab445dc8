import Graft.Grammar.File
import Mathlib.Data.List.Perm.Subperm

/-! # The grammar as a relation

The productions of `Graft.Grammar` decide how a text is read.  Here the same grammar is written down
without saying how it is read: `Derives d s ws t` says that the words `ws` spell the tree `t` as a
phrase of sort `s` in dialect `d`.

A **word** is a lexeme, or a comment group that documents what follows it.  Most phrases are nodes,
and a node is spelled field by field: a `Row` lists, for a sort of phrase and a kind of node, the
**parts** its words consist of in order — tokens that the node records and tokens that it does not,
phrases for its subtrees, and fields that no word stands for.  The remaining constructors of
`Derives` are about the options and lists between.

Everything that is true of every tree ever read is an induction over `Derives`, and for the nodes it
comes down to a check of the rows.
-/

namespace Graft

/-- An entry of the stream that a tree is spelled by. -/
inductive Word where
  | lexeme (l : Lexeme)
  /-- The comment group above what follows. -/
  | doc (g : CommentGroup)

namespace Word

/-- The lexeme a word is. -/
def lexeme? : Word → Option Lexeme
  | lexeme l => some l
  | doc _ => none

/-- The lexemes among some words. -/
def lexemes (ws : List Word) : List Lexeme := ws.filterMap lexeme?

@[simp] theorem lexemes_nil : lexemes [] = [] := rfl

@[simp] theorem lexemes_lexeme (l : Lexeme) (ws : List Word) :
    lexemes (lexeme l :: ws) = l :: lexemes ws := rfl

@[simp] theorem lexemes_doc (g : CommentGroup) (ws : List Word) :
    lexemes (doc g :: ws) = lexemes ws := rfl

@[simp] theorem lexemes_append (vs ws : List Word) :
    lexemes (vs ++ ws) = lexemes vs ++ lexemes ws := List.filterMap_append

theorem mem_lexemes {l : Lexeme} {ws : List Word} : l ∈ lexemes ws ↔ lexeme l ∈ ws := by
  induction ws with
  | nil => simp
  | cons w ws ih => cases w <;> simp [ih]

/-- The positions of a word: that of a lexeme, or those of the comments of a group. -/
def positions : Word → List Pos
  | lexeme l => [l.pos]
  | doc g => g.tree.positions

/-- The positions of some words. -/
def positionsAll (ws : List Word) : List Pos := ws.flatMap positions

theorem positionsAll_append (vs ws : List Word) :
    positionsAll (vs ++ ws) = positionsAll vs ++ positionsAll ws := List.flatMap_append

theorem positionsAll_lexeme (l : Lexeme) (ws : List Word) :
    positionsAll (lexeme l :: ws) = l.pos :: positionsAll ws := rfl

end Word

mutual

/-- The sorts of phrases. -/
inductive Phrase where
  | ident
  | literal
  | dots
  /-- The name an import is given: an identifier or a period. -/
  | importName
  /-- The comment above a node, or none. -/
  | doc
  | type
  /-- An array, map, struct or interface type. -/
  | typeLit
  | funcType
  /-- A function type without its keyword. -/
  | signature
  | arrayLength
  | params
  /-- An entry of a parameter list, written as a field. -/
  | entry
  | paramType
  | results
  | bareField
  /-- Fields of the given sort in braces. -/
  | members (s : Phrase)
  /-- A field of the given sort, or a wildcard in its place. -/
  | member (s : Phrase)
  | structField
  | interfaceField
  | fieldNames
  | operand
  | primary
  | unary
  | binary (least : Nat)
  /-- An argument, which dots may follow. -/
  | arg
  | element
  | elementValue
  | spec (keyword : Token)
  | declaration
  | simple
  | stmt
  | block
  | ifStmt
  | elseBody
  | switchBody
  | clause
  | decl
  /-- A phrase or nothing. -/
  | opt (s : Phrase)
  /-- A list phrase or the empty list. -/
  | orEmpty (s : Phrase)
  /-- A phrase as the only item of a list. -/
  | one (s : Phrase)
  /-- Phrases with a comma behind each. -/
  | ended (s : Phrase)
  /-- One or more phrases with commas between. -/
  | more (s : Phrase)
  /-- Phrases with commas between and perhaps one at the end. -/
  | trailing (s : Phrase)
  /-- Phrases and semicolons. -/
  | lines (s : Phrase)
  /-- A phrase behind a token. -/
  | behind (t : Token) (s : Phrase)
  /-- The fields of a node, spelled part by part. -/
  | parts (ps : List Part)

/-- What a stretch of the words of a node stands for. -/
inductive Part where
  /-- A token that is not recorded. -/
  | word (t : Token)
  /-- A line end, or nothing. -/
  | lineEnd
  /-- A token whose place is the next field. -/
  | mark (t : Token)
  /-- One of some tokens, whose place and name are the next two fields. -/
  | markIn (ts : List Token)
  /-- The place and the name of a token that is missing. -/
  | unmarked
  /-- A phrase, whose tree is the next field. -/
  | sub (s : Phrase)
  /-- A field that is always the same, and for which no word stands. -/
  | const (t : Tree)
  /-- The arguments of a call: the list of them, and the place of dots behind one. -/
  | args
  /-- The targets of a loop over a range: the first two of a list. -/
  | targets
  /-- The entries of a parameter list, whose fields are put together from them. -/
  | params

end

namespace Phrase

/-- An expression. -/
abbrev expr : Phrase := binary 1

end Phrase

/-- The operators that stand before an operand. -/
def Token.unaryOperators : List Token := [.add, .sub, .not, .xor, .and, .arrow]

/-- The tokens between the sides of an assignment. -/
def Token.assignments : List Token :=
  [.assign, .define, .addAssign, .subAssign, .mulAssign, .quoAssign, .remAssign, .andAssign,
    .orAssign, .xorAssign, .shlAssign, .shrAssign, .andNotAssign]

/-- The keywords of jumps. -/
def Token.jumps : List Token := [.kwBreak, .kwContinue, .kwGoto, .kwFallthrough]

/-- The keywords of declarations with specifications. -/
def Token.declarers : List Token := [.kwVar, .kwConst, .kwType, .kwImport]

open Graft.Phrase Graft.Part in
/-- The rows of the grammar: the nodes of each sort of phrase, part by part. -/
inductive Row : Phrase → Kind → List Part → Prop where
  -- types
  | qualified : Row .type .selectorExpr [sub .ident, word .period, sub .ident]
  | pointer : Row .type .starExpr [mark .mul, sub .type]
  | parenType : Row .type .parenExpr [mark .lparen, sub .type, mark .rparen]
  | array : Row .typeLit .arrayType [mark .lbrack, sub (opt arrayLength), word .rbrack, sub .type]
  | openArray : Row .arrayLength .ellipsis [mark .ellipsis, const .nil]
  | map : Row .typeLit .mapType [mark .kwMap, word .lbrack, sub .type, word .rbrack, sub .type]
  | struct : Row .typeLit .structType [mark .kwStruct, sub (members structField)]
  | interface : Row .typeLit .interfaceType [mark .kwInterface, sub (members interfaceField)]
  | func : Row .funcType .funcType [mark .kwFunc, sub .params, sub (opt results)]
  | signature : Row .signature .funcType [const (.pos .none), sub .params, sub (opt results)]
  | params : Row .params .fieldList [mark .lparen, .params, lineEnd, mark .rparen]
  | bareResult :
    Row .results .fieldList [const (.pos .none), sub (one bareField), const (.pos .none)]
  | bareField : Row .bareField .field [const .nil, const (.list []), sub .type, const .nil]
  | entry : Row .entry .field [const .nil, const (.list []), sub .paramType, const .nil]
  | dotsEntry : Row .entry .field [const .nil, const (.list []), sub .dots, const .nil]
  | namedEntry : Row .entry .field [const .nil, sub (one paramType), sub .paramType, const .nil]
  | variadic : Row .paramType .ellipsis [mark .ellipsis, sub .type]
  | members (s : Phrase) (hs : s = structField ∨ s = interfaceField) :
    Row (.members s) .fieldList [mark .lbrace, sub (lines (member s)), mark .rbrace]
  | dotsMember (s : Phrase) :
    Row (.member s) .field [const .nil, const (.list []), sub .dots, const .nil]
  | embedded : Row .structField .field [sub .doc, const (.list []), sub .type, sub (opt literal)]
  | named : Row .structField .field [sub .doc, sub fieldNames, sub .type, sub (opt literal)]
  | method : Row .interfaceField .field [sub .doc, sub (one .ident), sub .signature, const .nil]
  | embeddedType :
    Row .interfaceField .field [sub .doc, const (.list []), sub .type, const .nil]
  -- expressions
  | paren : Row .operand .parenExpr [mark .lparen, sub expr, lineEnd, mark .rparen]
  | funcLit : Row .operand .funcLit [sub .funcType, sub .block]
  | selector : Row .primary .selectorExpr [sub .primary, word .period, sub .ident]
  | typeAssert :
    Row .primary .typeAssertExpr
      [sub .primary, word .period, mark .lparen, sub .type, mark .rparen]
  | index : Row .primary .indexExpr [sub .primary, mark .lbrack, sub expr, mark .rbrack]
  | slice :
    Row .primary .sliceExpr
      [sub .primary, mark .lbrack, sub (opt expr), word .colon, sub (opt expr), mark .rbrack]
  | call : Row .primary .callExpr [sub .primary, mark .lparen, args, lineEnd, mark .rparen]
  | composite :
    Row .primary .compositeLit
      [sub .primary, mark .lbrace, sub (trailing .element), lineEnd, mark .rbrace]
  | bareLit :
    Row .elementValue .compositeLit
      [const .nil, mark .lbrace, sub (trailing .element), lineEnd, mark .rbrace]
  | keyValue : Row .element .keyValueExpr [sub elementValue, mark .colon, sub elementValue]
  | prefixed : Row .unary .unaryExpr [markIn Token.unaryOperators, sub .unary]
  | deref : Row .unary .starExpr [mark .mul, sub .unary]
  | binary {n : Nat} {op : Token} (hn : n ≤ op.precedence) (hop : 0 < op.precedence) :
    Row (.binary n) .binaryExpr
      [sub (.binary op.precedence), markIn [op], sub (.binary (op.precedence + 1))]
  -- declarations
  | importSpec : Row (.spec .kwImport) .importSpec [sub .doc, sub (opt importName), sub literal]
  | typeSpec : Row (.spec .kwType) .typeSpec [sub .doc, sub .ident, const (.pos .none), sub .type]
  | aliasSpec : Row (.spec .kwType) .typeSpec [sub .doc, sub .ident, mark .assign, sub .type]
  | valueSpec {kw : Token} (hkw : kw = .kwVar ∨ kw = .kwConst) :
    Row (.spec kw) .valueSpec
      [sub .doc, sub (more .ident), sub (opt .type), sub (orEmpty (behind .assign (more expr)))]
  | group {kw : Token} (hkw : kw ∈ Token.declarers) :
    Row .declaration .genDecl
      [sub .doc, markIn [kw], mark .lparen, sub (lines (.spec kw)), mark .rparen]
  | single {kw : Token} (hkw : kw ∈ Token.declarers) :
    Row .declaration .genDecl
      [sub .doc, markIn [kw], const (.pos .none), sub (one (.spec kw)), const (.pos .none)]
  | funcDecl :
    Row .decl .funcDecl
      [sub .doc, mark .kwFunc, sub (opt .params), sub .ident, sub .signature, sub (opt .block)]
  -- statements
  | exprStmt : Row .simple .exprStmt [sub expr]
  | assign : Row .simple .assignStmt [sub (more expr), markIn Token.assignments, sub (more expr)]
  | incDec : Row .simple .incDecStmt [sub expr, markIn [.inc, .dec]]
  | declStmt : Row .stmt .declStmt [sub .declaration]
  | goStmt : Row .stmt .goStmt [mark .kwGo, sub expr]
  | deferStmt : Row .stmt .deferStmt [mark .kwDefer, sub expr]
  | returnStmt : Row .stmt .returnStmt [mark .kwReturn, sub (orEmpty (more expr))]
  | branchStmt : Row .stmt .branchStmt [markIn Token.jumps, sub (opt .ident)]
  | block : Row .block .blockStmt [mark .lbrace, sub (lines stmt), mark .rbrace]
  | ifStmt :
    Row .ifStmt .ifStmt
      [mark .kwIf, const .nil, sub expr, sub .block, sub (opt (behind .kwElse elseBody))]
  | ifInit :
    Row .ifStmt .ifStmt
      [mark .kwIf, sub (opt simple), word .semicolon, sub expr, sub .block,
        sub (opt (behind .kwElse elseBody))]
  | switch : Row .stmt .switchStmt [mark .kwSwitch, const .nil, sub (opt expr), sub .switchBody]
  | switchInit :
    Row .stmt .switchStmt
      [mark .kwSwitch, sub (opt simple), word .semicolon, sub (opt expr), sub .switchBody]
  | switchBody : Row .switchBody .blockStmt [mark .lbrace, sub (lines clause), mark .rbrace]
  | case :
    Row .clause .caseClause [markIn [.kwCase], sub (more expr), mark .colon, sub (lines stmt)]
  | default :
    Row .clause .caseClause [markIn [.kwDefault], const (.list []), mark .colon, sub (lines stmt)]
  | forStmt : Row .stmt .forStmt [mark .kwFor, const .nil, sub (opt expr), const .nil, sub .block]
  | forClauses :
    Row .stmt .forStmt
      [mark .kwFor, sub (opt simple), word .semicolon, sub (opt expr), word .semicolon,
        sub (opt simple), sub .block]
  | rangeStmt :
    Row .stmt .rangeStmt
      [mark .kwFor, const .nil, const .nil, unmarked, mark .kwRange, sub expr, sub .block]
  | rangeTargets :
    Row .stmt .rangeStmt
      [mark .kwFor, targets, markIn [.assign, .define], mark .kwRange, sub expr, sub .block]

/-- The parts of the grammar. -/
inductive Chapter where
  | types
  | expressions
  | declarations
  | statements
  /-- Branches, loops and their clauses. -/
  | control

/-- The part of the grammar that the rows of a kind of node are in. -/
def Kind.chapter : Kind → Chapter
  | .arrayType | .mapType | .structType | .interfaceType | .funcType | .fieldList | .field
  | .ellipsis => .types
  | .importSpec | .typeSpec | .valueSpec | .genDecl | .funcDecl => .declarations
  | .exprStmt | .assignStmt | .incDecStmt | .declStmt | .goStmt | .deferStmt | .returnStmt
  | .branchStmt | .blockStmt => .statements
  | .ifStmt | .switchStmt | .caseClause | .forStmt | .rangeStmt => .control
  | _ => .expressions

/-- Which sorts of phrases are phrases of another sort as they stand. -/
inductive Covers : Phrase → Phrase → Prop where
  | typeIdent : Covers .type .ident
  | typeLit : Covers .type .typeLit
  | typeFunc : Covers .type .funcType
  | lengthExpr : Covers .arrayLength .expr
  | resultsParams : Covers .results .params
  | paramType : Covers .paramType .type
  | member (s : Phrase) : Covers (.member s) s
  | operandIdent : Covers .operand .ident
  | operandLiteral : Covers .operand .literal
  | operandType : Covers .operand .typeLit
  | operandFunc : Covers .operand .funcType
  | operandDots : Covers .operand .dots
  | primary : Covers .primary .operand
  | unary : Covers .unary .primary
  | binary (n : Nat) : Covers (.binary n) .unary
  | arg : Covers .arg .expr
  | elementValue : Covers .elementValue .expr
  | element : Covers .element .elementValue
  | importName : Covers .importName .ident
  | specDots (kw : Token) : Covers (.spec kw) .dots
  | declDeclaration : Covers .decl .declaration
  | declDots : Covers .decl .dots
  | stmtSimple : Covers .stmt .simple
  | stmtBlock : Covers .stmt .block
  | stmtIf : Covers .stmt .ifStmt
  | stmtDots : Covers .stmt .dots
  | elseIf : Covers .elseBody .ifStmt
  | elseBlock : Covers .elseBody .block
  | clauseDots : Covers .clause .dots
  | opt (s : Phrase) : Covers (.opt s) s
  | orEmpty (s : Phrase) : Covers (.orEmpty s) s
  | trailingEnded (s : Phrase) : Covers (.trailing s) (.ended s)
  | trailingMore (s : Phrase) : Covers (.trailing s) (.more s)

/-- Whether the trees of a sort of phrase are nodes. -/
def Phrase.isNode : Phrase → Bool
  | .doc | .opt _ | .orEmpty _ | .one _ | .ended _ | .more _ | .trailing _ | .lines _ | .behind _ _
  | .fieldNames | .parts _ => false
  | .member s => s.isNode
  | _ => true

/-- An entry of a parameter list as a field. -/
def Rules.ParamEntry.field (e : Rules.ParamEntry) : Tree := Rules.plainField e.name.toList e.type

/-- Whether `p` is the place of some dots among the words of the arguments `xs`, none of which
records them, or nowhere. -/
def IsSpread (ws : List Word) (xs : List Tree) (p : Pos) : Prop :=
  p = .none ∨ ∃ l, .lexeme l ∈ ws ∧ l.token = .ellipsis ∧ p = l.pos ∧
    (p :: Tree.positionsAll xs).Subperm (Word.positionsAll ws)

/-- **The grammar.**  The words spell the tree as a phrase of the given sort. -/
inductive Derives (d : Dialect) : Phrase → List Word → Tree → Prop where
  | ident {l : Lexeme} (h : l.token = .ident) :
    Derives d .ident [.lexeme l] (.ident l.pos l.text)
  | literal {l : Lexeme} (h : l.token.isLiteral = true) :
    Derives d .literal [.lexeme l] (.node .basicLit [.pos l.pos, .tok l.token, .str l.text])
  | dots {l : Lexeme} (hd : d = .pattern) (h : l.token = .ellipsis) :
    Derives d .dots [.lexeme l] (.dots l.pos)
  | period {l : Lexeme} (h : l.token = .period) :
    Derives d .importName [.lexeme l] (.ident l.pos ".")
  | noDoc : Derives d .doc [] .nil
  | doc (g : CommentGroup) : Derives d .doc [.doc g] g.tree
  | none (s : Phrase) : Derives d (.opt s) [] .nil
  | empty (s : Phrase) : Derives d (.orEmpty s) [] (.list [])
  | cover {s s' : Phrase} {ws : List Word} {t : Tree} (h : Covers s s')
      (hs : Derives d s' ws t) : Derives d s ws t
  | node {s : Phrase} {k : Kind} {ps : List Part} {ws : List Word} {ts : List Tree}
      (h : Row s k ps) (hp : Derives d (.parts ps) ws (.list ts)) : Derives d s ws (.node k ts)
  | behind {tok : Token} {s : Phrase} {l : Lexeme} {ws : List Word} {t : Tree} (h : l.token = tok)
      (hs : Derives d s ws t) : Derives d (.behind tok s) (.lexeme l :: ws) t
  | spread {ws : List Word} {t : Tree} {l : Lexeme} (hs : Derives d .expr ws t)
      (h : l.token = .ellipsis) : Derives d .arg (ws ++ [.lexeme l]) t
  -- lists
  | one {s : Phrase} {ws : List Word} {t : Tree} (hn : s.isNode = true) (hs : Derives d s ws t) :
    Derives d (.one s) ws (.list [t])
  | endedNil (s : Phrase) : Derives d (.ended s) [] (.list [])
  | endedComma {s : Phrase} {ws : List Word} {l : Lexeme} {t : Tree} (hs : Derives d (.more s) ws t)
      (h : l.token = .comma) : Derives d (.ended s) (ws ++ [.lexeme l]) t
  | more {s : Phrase} {ws ws' : List Word} {ts : List Tree} {t : Tree} (hn : s.isNode = true)
      (hs : Derives d (.ended s) ws (.list ts)) (ht : Derives d s ws' t) :
    Derives d (.more s) (ws ++ ws') (.list (ts ++ [t]))
  | linesNil (s : Phrase) : Derives d (.lines s) [] (.list [])
  | linesSemicolon {s : Phrase} {ws : List Word} {l : Lexeme} {t : Tree}
      (hs : Derives d (.lines s) ws t) (h : l.token = .semicolon) :
    Derives d (.lines s) (ws ++ [.lexeme l]) t
  | linesItem {s : Phrase} {ws ws' : List Word} {ts : List Tree} {t : Tree} (hn : s.isNode = true)
      (hs : Derives d (.lines s) ws (.list ts)) (ht : Derives d s ws' t) :
    Derives d (.lines s) (ws ++ ws') (.list (ts ++ [t]))
  | firstName {ws : List Word} {t : Tree} (ht : Derives d .type ws t) :
    Derives d .fieldNames ws (.list [t])
  | nextName {ws ws' : List Word} {l : Lexeme} {ts : List Tree} {t : Tree}
      (hs : Derives d .fieldNames ws (.list ts)) (h : l.token = .comma)
      (ht : Derives d .ident ws' t) :
    Derives d .fieldNames (ws ++ .lexeme l :: ws') (.list (ts ++ [t]))
  -- parts
  | partsNil : Derives d (.parts []) [] (.list [])
  | word {tok : Token} {ps : List Part} {l : Lexeme} {ws : List Word} {ts : List Tree}
      (h : l.token = tok) (hp : Derives d (.parts ps) ws (.list ts)) :
    Derives d (.parts (.word tok :: ps)) (.lexeme l :: ws) (.list ts)
  | noLineEnd {ps : List Part} {ws : List Word} {ts : List Tree}
      (hp : Derives d (.parts ps) ws (.list ts)) : Derives d (.parts (.lineEnd :: ps)) ws (.list ts)
  | lineEnd {ps : List Part} {l : Lexeme} {ws : List Word} {ts : List Tree}
      (h : l.token = .semicolon) (hp : Derives d (.parts ps) ws (.list ts)) :
    Derives d (.parts (.lineEnd :: ps)) (.lexeme l :: ws) (.list ts)
  | mark {tok : Token} {ps : List Part} {l : Lexeme} {ws : List Word} {ts : List Tree}
      (h : l.token = tok) (hp : Derives d (.parts ps) ws (.list ts)) :
    Derives d (.parts (.mark tok :: ps)) (.lexeme l :: ws) (.list (.pos l.pos :: ts))
  | markIn {toks : List Token} {ps : List Part} {l : Lexeme} {ws : List Word} {ts : List Tree}
      (h : l.token ∈ toks) (hp : Derives d (.parts ps) ws (.list ts)) :
    Derives d (.parts (.markIn toks :: ps)) (.lexeme l :: ws)
      (.list (.pos l.pos :: .tok l.token :: ts))
  | unmarked {ps : List Part} {ws : List Word} {ts : List Tree}
      (hp : Derives d (.parts ps) ws (.list ts)) :
    Derives d (.parts (.unmarked :: ps)) ws (.list (.pos .none :: .tok .illegal :: ts))
  | sub {s : Phrase} {ps : List Part} {ws ws' : List Word} {t : Tree} {ts : List Tree}
      (hs : Derives d s ws t) (hp : Derives d (.parts ps) ws' (.list ts)) :
    Derives d (.parts (.sub s :: ps)) (ws ++ ws') (.list (t :: ts))
  | const {t : Tree} {ps : List Part} {ws : List Word} {ts : List Tree}
      (hp : Derives d (.parts ps) ws (.list ts)) :
    Derives d (.parts (.const t :: ps)) ws (.list (t :: ts))
  | args {ps : List Part} {ws ws' : List Word} {xs ts : List Tree} {p : Pos}
      (hs : Derives d (.trailing .arg) ws (.list xs)) (h : IsSpread ws xs p)
      (hp : Derives d (.parts ps) ws' (.list ts)) :
    Derives d (.parts (.args :: ps)) (ws ++ ws') (.list (.list xs :: .pos p :: ts))
  | targets {ps : List Part} {ws ws' : List Word} {xs ts : List Tree}
      (hs : Derives d (.more .expr) ws (.list xs)) (hp : Derives d (.parts ps) ws' (.list ts)) :
    Derives d (.parts (.targets :: ps)) (ws ++ ws')
      (.list (xs[0]?.getD .nil :: xs[1]?.getD .nil :: ts))
  | params {ps : List Part} {ws ws' : List Word} {es : List Rules.ParamEntry} {fs ts : List Tree}
      (hs : Derives d (.trailing .entry) ws (.list (es.map (·.field))))
      (h : Rules.fieldsOfEntries es = .ok fs) (hp : Derives d (.parts ps) ws' (.list ts)) :
    Derives d (.parts (.params :: ps)) (ws ++ ws') (.list (.list fs :: ts))

end Graft
