import Graft.Text.Quoted
import Graft.Tree.Basic

/-! # Import paths

An import names a package by its path, in quotes.  Code uses the package by a name: the one given in
the import, or else the name that the path suggests (`ImportPath.packageName`): its last part,
without a major version and without the marks by which repositories say that they hold code for this
language.
-/

namespace Graft.ImportPath

/-- The text between two equal quotes. -/
def between? (quote : Char) : List Char → Option (List Char)
  | c :: cs =>
    if c = quote then
      match cs.reverse with
      | d :: inner => if d = quote then some inner.reverse else none
      | [] => none
    else none
  | [] => none

/-- The path a string literal spells.  What stands between the quotes is taken as it is. -/
def unquote? (literal : String) : Option String :=
  let cs := literal.toList
  (between? '\x22' cs <|> between? '\x60' cs).map String.ofList

/-- The path of an import specification. -/
def ofSpec? (spec : Node) : Option String := do
  let literal ← spec.node? .path
  unquote? (← literal.str? .value)

/-- Whether a part of a path is a major version: the letter and digits. -/
def isMajorVersion : List Char → Bool
  | 'v' :: d :: ds => (d :: ds).all Char.isDigit
  | _ => false

/-- The parts of a text between separators, last one first. -/
def partsFromEnd (sep : Char) (cs : List Char) : List (List Char) :=
  (cs.foldr
    (fun c parts =>
      match parts with
      | [] => [[c]]
      | part :: rest => if c = sep then [] :: part :: rest else (c :: part) :: rest)
    [[]]).reverse

/-- The part of a path that names the package: the last one, or the one before a major version. -/
def namingPart (path : List Char) : List Char :=
  match partsFromEnd '/' path with
  | last :: prev :: _ => if isMajorVersion last then prev else last
  | [last] => last
  | [] => path

/-- A part without a major version behind its last period. -/
def dropVersion (part : List Char) : List Char :=
  let behind := (part.reverse.takeWhile (· != '.')).reverse
  match part.reverse.dropWhile (· != '.') with
  | [] => part
  | _ :: base => if isMajorVersion behind then base.reverse else part

/-- A text without a beginning, if it has it. -/
def dropFront (front cs : List Char) : List Char :=
  if front.isPrefixOf cs then cs.drop front.length else cs

/-- A text without an ending, if it has it. -/
def dropBack? (back cs : List Char) : Option (List Char) :=
  if back.reverse.isPrefixOf cs.reverse then some (cs.take (cs.length - back.length)) else none

/-- The name under which the package of a path is used when its import gives none. -/
def packageName (path : String) : String :=
  let part := dropFront "go-".toList (dropVersion (namingPart path.toList))
  let part := (dropBack? ".go".toList part <|> dropBack? "-go".toList part).getD part
  String.ofList (part.map fun c => if c == '-' || c == '.' then '_' else c)

end Graft.ImportPath
