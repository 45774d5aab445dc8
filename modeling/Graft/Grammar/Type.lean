import Graft.Grammar.Reader

/-! # Types and signatures

Productions for type expressions, parameter lists, structs and interfaces.

A parameter list is read as entries of one or two parts.  When some entry has two parts, the list is
named: an entry of one part is then a name that shares the type of the next entry with two, and so
has to be an identifier.
-/

namespace Graft.Rules

open Reader

/-- A field without documentation and tag. -/
def plainField (names : List Tree) (type : Tree) : Tree :=
  .node .field [.nil, .list names, type, .nil]

/-- Whether the token in front begins the type of a result or of a struct field. -/
def startsType : Reader Bool := do
  match ← token with
  | .ident | .mul | .lbrack | .kwMap | .kwFunc | .kwStruct | .kwInterface | .kwChan => return true
  | _ => return false

/-- The type of a parameter, which may stand for any number of arguments. -/
def paramType (r : Rules) : Reader Tree := do
  if (← token) == .ellipsis then
    let p ← take
    return .node .ellipsis [.pos p, ← r.type]
  else
    r.type

/-- An entry of a parameter list: its name if it has two parts, and its type or only part. -/
structure ParamEntry where
  name : Option Tree
  type : Tree

/-- An entry of a parameter list. -/
def paramEntry (r : Rules) : Reader ParamEntry := do
  if (← atDots) && ((← following) == .rparen || (← following) == .comma) then
    return ⟨none, ← dots⟩
  let x ← r.paramType
  match ← token with
  | .comma | .rparen => return ⟨none, x⟩
  | _ => return ⟨some x, ← r.paramType⟩

/-- The fields of a named parameter list; `pending` holds the names that still wait for a type. -/
def namedFields (pending : List Tree) : List ParamEntry → Except ParseError (List Tree)
  | [] =>
    match pending with
    | [] => .ok []
    | name :: _ => .error ⟨name.start, .missingParameterType⟩
  | ⟨some name, type⟩ :: es => do
    return plainField (pending ++ [name]) type :: (← namedFields [] es)
  | ⟨none, type⟩ :: es =>
    if type.isKind .dots then do return plainField [] type :: (← namedFields pending es)
    else if type.isKind .ident then namedFields (pending ++ [type]) es
    else .error ⟨type.start, .mixedParameters⟩

/-- The fields of a parameter list. -/
def fieldsOfEntries (es : List ParamEntry) : Except ParseError (List Tree) :=
  if es.any (·.name.isSome) then namedFields [] es
  else .ok (es.map fun e => plainField [] e.type)

/-- A parenthesised parameter list. -/
def params (r : Rules) : Reader Tree := do
  let opening ← expect .lparen
  let entries ← iterate [] fun es => do
    match ← token with
    | .rparen | .eof => return .inr es
    | _ =>
      let es := es ++ [← r.paramEntry]
      match ← got? .comma with
      | some _ => return .inl es
      | none => return .inr es
  skipLineEnd .rparen
  let closing ← expect .rparen
  match fieldsOfEntries entries with
  | .ok fields => return .node .fieldList [.pos opening, .list fields, .pos closing]
  | .error e => throw e

/-- The parameters and results of a function. -/
def signature (r : Rules) : Reader (Tree × Tree) := do
  let params ← r.params
  if (← token) == .lparen then
    return (params, ← r.params)
  else if ← startsType then
    let type ← r.type
    return (params, .node .fieldList [.pos .none, .list [plainField [] type], .pos .none])
  else
    return (params, .nil)

/-- The fields between the braces of a struct or interface, where `member` reads one field. -/
def members (member : Reader Tree) : Reader Tree := do
  let opening ← expect .lbrace
  let fields ← iterate [] fun fs => do
    match ← token with
    | .rbrace | .eof => return .inr fs
    | _ =>
      let f ← if ← atDots then pure (plainField [] (← dots)) else member
      endStatement
      return .inl (fs ++ [f])
  let closing ← expect .rbrace
  return .node .fieldList [.pos opening, .list fields, .pos closing]

/-- A field of a struct: names and their type, or an embedded type; then perhaps a tag. -/
def structField (r : Rules) : Reader Tree := do
  let doc ← docFor (← position)
  let first ← r.type
  let (names, type) ←
    if (← token) == .comma || (← startsType) then do
      let names ← iterate [first] fun ns => do
        match ← got? .comma with
        | some _ => return .inl (ns ++ [← ident])
        | none => return .inr ns
      pure (names, ← r.type)
    else
      pure ([], first)
  let tag ← if (← token) == .string then basicLit else pure .nil
  return .node .field [doc, .list names, type, tag]

/-- A member of an interface: a method, or an embedded type. -/
def interfaceField (r : Rules) : Reader Tree := do
  let doc ← docFor (← position)
  let first ← r.type
  if first.isKind .ident && (← token) == .lparen then
    let (params, results) ← r.signature
    let type := Tree.node .funcType [.pos .none, params, results]
    return .node .field [doc, .list [first], type, .nil]
  else
    return .node .field [doc, .list [], first, .nil]

/-- A type name, which may be qualified. -/
def typeName : Reader Tree := do
  let x ← ident
  match ← got? .period with
  | some _ => return .node .selectorExpr [x, ← ident]
  | none => return x

/-- A slice or array type. -/
def arrayType (r : Rules) : Reader Tree := do
  let lbrack ← take
  let len ←
    match ← token with
    | .rbrack => pure .nil
    | .ellipsis => pure (.node .ellipsis [.pos (← take), .nil])
    | _ => r.expr
  let _ ← expect .rbrack
  return .node .arrayType [.pos lbrack, len, ← r.type]

/-- A map type. -/
def mapType (r : Rules) : Reader Tree := do
  let map ← take
  let _ ← expect .lbrack
  let key ← r.type
  let _ ← expect .rbrack
  return .node .mapType [.pos map, key, ← r.type]

/-- A type. -/
def typeStep (r : Rules) : Reader Tree := do
  match ← token with
  | .ident => typeName
  | .mul =>
    let star ← take
    return .node .starExpr [.pos star, ← r.type]
  | .lbrack => r.arrayType
  | .kwMap => r.mapType
  | .kwFunc =>
    let func ← take
    let (params, results) ← r.signature
    return .node .funcType [.pos func, params, results]
  | .kwStruct =>
    let keyword ← take
    return .node .structType [.pos keyword, ← members r.structField]
  | .kwInterface =>
    let keyword ← take
    return .node .interfaceType [.pos keyword, ← members r.interfaceField]
  | .lparen =>
    let lparen ← take
    let x ← r.type
    let rparen ← expect .rparen
    return .node .parenExpr [.pos lparen, x, .pos rparen]
  | _ => unexpected .typeExpr

end Graft.Rules
