import Graft.Layout.Printer
import Graft.Recipe.Apply
import Graft.Recipe.Compile
import Graft.Tree.Dump

/-! # Jobs

A job applies one patch file to one source text.  Its report holds all there is to say about it:
what is shown on the way, remarks on mistakes in the two texts, and the new text or the reason why
there is none.
-/

namespace Graft.CommandLine

/-- A text and the name by which messages speak of it. -/
structure Document where
  name : String
  text : List Char

/-- Why there is no result. -/
inductive Failure where
  /-- A file that cannot be read, by its clean name, and what the system says. -/
  | unreadable (file reason : String)
  /-- A file that cannot be written, and what the system says. -/
  | unwritable (reason : String)
  | patchFaults (patch : String)
  | sourceFault (source : String)
  | notApplied (patch source : String) (e : BuildError)
  deriving DecidableEq

/-- What failed, in a line. -/
def Failure.headline : Failure → String
  | unreadable file _ => "cannot read " ++ file
  | unwritable reason => reason
  | patchFaults patch => "cannot compile " ++ patch
  | sourceFault source => "cannot parse " ++ source
  | notApplied patch source _ => "cannot apply " ++ patch ++ " to " ++ source

/-- What made it fail. -/
def Failure.cause? : Failure → Option String
  | unreadable _ reason => some reason
  | notApplied _ _ e => some e.message
  | unwritable _ | patchFaults _ | sourceFault _ => none

/-- The wording of a failure. -/
def Failure.message (f : Failure) : String :=
  "Error: " ++ f.headline ++ (f.cause?.map ("\n\nCaused by:\n    " ++ ·)).getD ""

/-- What to do. -/
structure Job where
  patch : Document
  source : Document
  options : Recipe.Options
  /-- Whether both sides of every patch are shown. -/
  showPatches : Bool
  /-- Whether the tree of the result is shown. -/
  showTree : Bool

/-- What came of a job. -/
structure Report where
  /-- What is shown on the way. -/
  shown : String
  /-- Remarks on mistakes in the texts, one a line. -/
  remarks : List String
  result : Except Failure String

namespace Job

/-- A remark on a place of a document; lines and columns count from one. -/
def remark (d : Document) (p : Pos) (message : String) : String :=
  let place :=
    match (LineTable.ofText d.text).lineCol? p with
    | some (line, col) => ":" ++ toString (line + 1) ++ ":" ++ toString (col + 1)
    | none => ""
  d.name ++ place ++ ": " ++ message

/-- The sides of the sound patches of a file, as documents.  A patch without a name goes by its
number. -/
def patchesShown (text : List Char) : String :=
  let show_ (p : Patch) (i : Nat) : String :=
    let name := p.name.getD ("#" ++ toString i)
    "============ Pattern " ++ name ++ " ===========\n" ++ p.minus.fragment.toYaml.document
      ++ "========== Replacement " ++ name ++ " =========\n" ++ p.plus.fragment.toYaml.document
  String.join ((PatchFile.read text).patches.zipIdx.map fun (p, i) => show_ p i)
    ++ "========== End of Patches ==========\n"

/-- The tree of a file, as a document. -/
def treeShown (file : Node) : String :=
  "=============== AST ==============\n" ++ file.tree.toYaml.document
    ++ "=========== End of AST ===========\n"

/-- Does a job. -/
def run (j : Job) : Report :=
  let shown := if j.showPatches then patchesShown j.patch.text else ""
  match compilePatchFile j.patch.text with
  | .error es =>
    ⟨shown, es.map fun e => remark j.patch e.span.start e.fault.message,
      .error (.patchFaults j.patch.name)⟩
  | .ok recipes =>
    match parseFile .code j.source.text with
    | .error e => ⟨shown, [remark j.source e.pos e.message], .error (.sourceFault j.source.name)⟩
    | .ok file =>
      let src := Source.ofText j.source.text
      match Recipe.applyAll recipes file src.lines j.options with
      | .error e => ⟨shown, [], .error (.notApplied j.patch.name j.source.name e)⟩
      | .ok s =>
        ⟨shown ++ (if j.showTree then treeShown s.file else ""), [],
          .ok (printFile s.file src s.changed .default)⟩

end Job

end Graft.CommandLine
