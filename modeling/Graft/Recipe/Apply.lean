import Graft.Change.Baseline
import Graft.Recipe.Imports

/-! # Applying recipes to a file

A recipe walks a file from the leaves up, so that code inside is replaced before the code around it
is tried, and puts every replacement in place at once.  A match whose replacement does not fit where
it stands is passed over; a match that lacks what the template asks for stops the walk, and the file
stays as it is at that point.

In a container a window recipe goes from left to right: after a replacement it goes on with what
stands behind the stretch it replaced.  Each round leaves fewer elements to look at, so the number
of elements bounds the number of rounds.
-/

namespace Graft

/-- What a walk over a file keeps track of. -/
structure Pass where
  log : EditLog
  /-- The number of replacements. -/
  count : Nat
  /-- The captures of the last replacement. -/
  last : Option Captures
  /-- Why the walk stopped. -/
  failure : Option BuildError

/-- What a walk does to a node that is reached, given its slot. -/
abbrev Visit := Slot → Tree → Pass → Tree × Pass

/-- The slot of an element of a list. -/
def Slot.ofItem : Slot → Slot
  | .list c => .node c
  | s => s

mutual

/-- Walks over a value, children before their parents. -/
def sweep (visit : Visit) (slot : Slot) : Tree → Pass → Tree × Pass
  | .list ts, pass =>
    let (ts, pass) := sweepItems visit slot.ofItem ts pass
    (.list ts, pass)
  | .node k fs, pass =>
    if Node.isImportDecl ⟨k, fs⟩ then (.node k fs, pass)
    else
      let (fs, pass) := sweepFields visit k.fields fs pass
      visit slot (.node k fs) pass
  | t, pass => (t, pass)

/-- Walks over the elements of a list. -/
def sweepItems (visit : Visit) (slot : Slot) : List Tree → Pass → List Tree × Pass
  | [], pass => ([], pass)
  | t :: ts, pass =>
    let (t, pass) := sweep visit slot t pass
    let (ts, pass) := sweepItems visit slot ts pass
    (t :: ts, pass)

/-- Walks over the fields of a node that hold code. -/
def sweepFields (visit : Visit) : List Field → List Tree → Pass → List Tree × Pass
  | f :: fs, t :: ts, pass =>
    let (t, pass) := if f.slot.holdsCode then sweep visit f.slot t pass else (t, pass)
    let (ts, pass) := sweepFields visit fs ts pass
    (t :: ts, pass)
  | _, ts, pass => (ts, pass)

end

namespace Pass

/-- The pass after a replacement, or after finding that nothing has to change. -/
def advance (pass : Pass) (c : Captures) (log : EditLog) : Pass :=
  { pass with log := log, count := pass.count + 1, last := some c }

/-- The pass after a replacement that could not be built. -/
def reject (pass : Pass) (e : BuildError) (log : EditLog) : Pass :=
  { pass with log := log, failure := if e.isMisfit then pass.failure else some e }

end Pass

namespace Recipe

/-! ### Expressions -/

/-- Tries an expression recipe on a node. -/
def visitExpr (r : Recipe) (pattern : Pattern) (base : Captures) : Visit := fun slot t pass =>
  if pass.failure.isSome then (t, pass)
  else
    match pattern.match? t base with
    | none => (t, pass)
    | some c =>
      let c := (c.bind .site (.span t.span)).visible
      match r.replaceInto c pass.log (some slot) t.node? with
      | (.ok (some new), log) => (new, pass.advance c log)
      | (.ok none, log) => (t, pass.advance c log)
      | (.error e, log) => (t, pass.reject e log)

/-! ### Windows -/

/-- The number of elements in a captured run. -/
def runLength (c : Captures) (k : Key) : Nat := ((c.run? k).map (·.1.length)).getD 0

/-- Replaces stretches of a container from the element with number `offset` on, in at most the given
number of rounds. -/
def rewindow (r : Recipe) (l : Label) (pattern : Pattern) (base : Captures) :
    Nat → Nat → Node → Pass → Node × Pass
  | 0, _, n, pass => (n, pass)
  | rounds + 1, offset, n, pass =>
    let size := (n.list l).length
    if size ≤ offset then (n, pass)
    else
      match matchWindow? n l offset pattern base with
      | none => (n, pass)
      | some c =>
        let c := c.visible
        let head := runLength c .head
        let tail := runLength c .tail
        match r.replaceInto c pass.log none (some n) with
        | (.ok (some (.node k fs)), log) =>
          let new : Node := ⟨k, fs⟩
          let newSize := (new.list l).length
          let next := newSize - tail
          let pass := pass.advance c log
          if next ≤ offset && size ≤ newSize then (new, pass)
          else r.rewindow l pattern base rounds next new pass
        | (.ok (some _), log) => (n, { pass with log := log })
        | (.ok none, log) =>
          r.rewindow l pattern base rounds (max (size - tail) (offset + head + 1)) n
            (pass.advance c log)
        | (.error e, log) =>
          let pass := pass.reject e log
          if pass.failure.isSome then (n, pass)
          else r.rewindow l pattern base rounds (offset + head + 1) n pass

/-- Tries a window recipe on a node. -/
def visitContainer (r : Recipe) (level : Level) (pattern : Pattern) (base : Captures) : Visit :=
  fun _ t pass =>
    if pass.failure.isSome then (t, pass)
    else
      match t.node? with
      | none => (t, pass)
      | some n =>
        match level.field? n.kind with
        | none => (t, pass)
        | some l =>
          let (n, pass) := r.rewindow l pattern base ((n.list l).length + 1) 0 n pass
          (n.tree, pass)

/-! ### Files -/

/-- The first match in a file, parents before their children. -/
def matchFile? (r : Recipe) (file : Node) : Option Captures := do
  let base ← r.matchHeader? file
  match r.body with
  | .none => return base
  | .expr pattern _ =>
    let candidates :=
      if file.isImportDecl then [] else Tree.codeFields file.kind.fields file.fields
    candidates.findSome? fun t => (pattern.match? t base).map (·.bind .site (.span t.span))
  | .window level pattern _ =>
    file.tree.nodes.findSome? fun n => do
      let l ← level.field? n.kind
      matchWindow? n l 0 pattern base

/-- Walks over a file with the body of a recipe. -/
def walkFile (r : Recipe) (base : Captures) (file : Node) (log : EditLog) : Node × Pass :=
  let pass : Pass := ⟨log, 0, none, none⟩
  match r.body with
  | .none => (file, pass)
  | .expr pattern _ =>
    let (fields, pass) := sweepFields (r.visitExpr pattern base) file.kind.fields file.fields pass
    ({ file with fields := fields }, pass)
  | .window level pattern _ =>
    let (t, pass) := sweep (r.visitContainer level pattern base) (.node .file) file pass
    (t.node?.getD file, pass)

/-- How a recipe is applied. -/
structure Options where
  /-- Whether imports are added, renamed and removed. -/
  fixImports : Bool
  /-- Whether the file is compared with its baseline between recipes. -/
  compareBaselines : Bool

/-- Everything is done. -/
def Options.default : Options := ⟨true, true⟩

/-- What applying a recipe came to. -/
structure Outcome where
  /-- The number of replacements, or why the walk stopped. -/
  result : Except BuildError Nat
  file : Node
  log : EditLog

/-- Brings imports and package clause into line after a walk with `count` replacements. -/
def finish (r : Recipe) (c : Captures) (count : Nat) (file : Node) (log : EditLog)
    (opts : Options) :
    Outcome :=
  let isBodyless :=
    match r.body with
    | .none => true
    | _ => false
  if count > 0 || isBodyless then
    let (file, log, imports) :=
      if opts.fixImports then r.updateImports c file log else (file, log, false)
    let (file, log, package) := r.updatePackage file log
    ⟨.ok (if isBodyless && (imports || package) then 1 else count), file, log.commit⟩
  else ⟨.ok count, file, log⟩

/-- Applies a recipe to a file. -/
def apply (r : Recipe) (file : Node) (log : EditLog) (opts : Options) : Outcome :=
  match r.matchHeader? file with
  | none => ⟨.ok 0, file, log⟩
  | some base =>
    let (file, pass) := r.walkFile base file log
    match pass.failure with
    | some e => ⟨.error e, file, pass.log⟩
    | none => r.finish (pass.last.getD base.visible) pass.count file pass.log opts

/-! ### Several recipes -/

/-- A file under several recipes: the file, the ranges that changed, and the baseline of the
file. -/
structure Session where
  file : Node
  changed : SpanSet
  baseline : Option Baseline

/-- Applies one recipe more.  Besides the ranges that the replacements report, everything counts as
changed that differs from the baseline, except what a replacement took over as it was. -/
def Session.step (opts : Options) (s : Session) (r : Recipe) : Except BuildError Session :=
  let outcome := r.apply s.file .empty opts
  match outcome.result with
  | .error e => .error e
  | .ok _ =>
    let changed := s.changed.union outcome.log.changed
    match s.baseline with
    | none => .ok ⟨outcome.file, changed, none⟩
    | some b =>
      let (next, diff) := b.compare outcome.file .empty
      .ok ⟨outcome.file, changed.union (diff.changed.subtract outcome.log.kept), some next⟩

/-- Applies recipes to a file one after another: the file and the ranges of the source that
changed. -/
def applyAll (rs : List Recipe) (file : Node) (lines : LineTable) (opts : Options) :
    Except BuildError Session :=
  let baseline := if opts.compareBaselines then some (Baseline.capture file lines) else none
  rs.foldlM (Session.step opts) ⟨file, .empty, baseline⟩

end Recipe

end Graft
