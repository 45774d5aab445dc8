import Graft.Grammar.File
import Graft.Text.Yaml

/-! # Trees as documents

The YAML form of trees and fragments, in which the command line shows them.  A node is a mapping of
its kind and its fields in schema order; fields without a value are left out.
-/

namespace Graft

open Yaml

mutual

/-- The document form of a value. -/
def Tree.toYaml : Tree → Block
  | .nil => .inline "null"
  | .pos p => .inline (toString p.index)
  | .str s => .ofText s
  | .tok t => .ofText t.text
  | .list ts => .ofItems (Tree.toYamlAll ts)
  | .node k fs => .mapping (("kind: " ++ k.name) :: Tree.toYamlFields k.fields fs)

/-- The document forms of some values. -/
def Tree.toYamlAll : List Tree → List Block
  | [] => []
  | t :: ts => t.toYaml :: Tree.toYamlAll ts

/-- The lines of the fields of a node. -/
def Tree.toYamlFields : List Field → List Tree → List String
  | f :: fs, t :: ts =>
    (if t.isNil then [] else Block.entry f.label.spelling none t.toYaml) ++ Tree.toYamlFields fs ts
  | _, _ => []

end

/-- The entry for the body of a fragment. -/
def Body.yamlEntry : Body → List String
  | empty => Block.entry "body" none (.inline "Empty")
  | expr x => Block.entry "body" (some "Expr") x.toYaml
  | stmts ts => Block.entry "body" (some "Stmts") (Tree.list ts).toYaml
  | decls ts => Block.entry "body" (some "Decls") (Tree.list ts).toYaml

/-- The document form of a fragment. -/
def Fragment.toYaml (f : Fragment) : Block :=
  let package :=
    match f.package with
    | none => Block.inline "null"
    | some (p, name) => .ofItems [(Tree.pos p).toYaml, name.toYaml]
  .mapping
    (Block.entry "package" none package ++ Block.entry "imports" none (Tree.list f.imports).toYaml
      ++ f.body.yamlEntry)

end Graft
