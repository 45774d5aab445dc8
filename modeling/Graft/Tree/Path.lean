import Graft.Tree.Basic

/-! # Paths into a tree

A path leads from a value to a value inside it, through fields of nodes and elements of lists.  An
edit changes what stands at the end of a path and nothing else; a path that leads nowhere changes
nothing.
-/

namespace Graft

/-- A step from a value to a value inside it. -/
inductive PathStep where
  | field (name : String)
  | item (index : Nat)
  deriving DecidableEq

/-- What an edit does at the end of its path. -/
inductive PathEdit where
  /-- Puts another value there. -/
  | set (t : Tree)
  /-- Puts an element before the one there. -/
  | insert (t : Tree)
  /-- Takes the element there out of its list. -/
  | remove

namespace Tree

/-- The number of the field of a node with the given name. -/
def fieldIndex? (k : Kind) (name : String) : Option Nat :=
  k.fields.findIdx? (·.label.spelling == name)

/-- The value a step leads to. -/
def step? : Tree → PathStep → Option Tree
  | node k fs, .field name => (fieldIndex? k name).bind fun i => fs[i]?
  | list ts, .item i => ts[i]?
  | _, _ => none

/-- The value at the end of a path. -/
def at? (t : Tree) (path : List PathStep) : Option Tree := path.foldlM step? t

/-- Changes the value a step leads to. -/
def modifyStep (f : Tree → Tree) : Tree → PathStep → Tree
  | node k fs, .field name =>
    match fieldIndex? k name with
    | some i => node k (fs.modify i f)
    | none => node k fs
  | list ts, .item i => list (ts.modify i f)
  | t, _ => t

/-- Makes an edit at the end of a path of one step. -/
def editStep (edit : PathEdit) (t : Tree) (step : PathStep) : Tree :=
  match edit, t, step with
  | .set new, t, step => t.modifyStep (fun _ => new) step
  | .insert new, list ts, .item i => list (ts.insertIdx i new)
  | .remove, list ts, .item i => list (ts.eraseIdx i)
  | _, t, _ => t

/-- Makes an edit at the end of a path. -/
def editAt (edit : PathEdit) : List PathStep → Tree → Tree
  | [], t => t
  | [step], t => t.editStep edit step
  | step :: path, t => t.modifyStep (editAt edit path) step

end Tree

end Graft
