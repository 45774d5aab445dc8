import Graft.CommandLine.Arguments
import Graft.CommandLine.FileName
import Graft.CommandLine.Job

/-! # Running the program

The program between its arguments and its exit code.  What it needs from the outside is a `Host`;
the program itself only decides in which order it is asked.  The patch is read before the source,
both before any work is done, and a file is written only when there is a result.
-/

namespace Graft.CommandLine

/-- What the program needs from the outside.  Reading and writing a file may fail, for a reason the
host puts into words. -/
structure Host (m : Type → Type) where
  /-- The directory from which file names are read. -/
  currentDir : m String
  load : String → m (Except String String)
  save : String → String → m (Except String Unit)
  /-- All of the standard input. -/
  readInput : m String
  /-- Writes to the standard output. -/
  say : String → m Unit
  /-- Writes a line to the standard error output. -/
  complain : String → m Unit

/-- The exit code of success. -/
def exitDone : UInt32 := 0

/-- The exit code after a failure. -/
def exitFailed : UInt32 := 1

/-- The exit code after a mistake in the arguments. -/
def exitUsage : UInt32 := 2

/-- What the program says about its version. -/
def versionText : String := "spatch-cli 0.1.0\n"

/-- What the program says about its use. -/
def helpText : String :=
  "Apply a semantic patch to a Go source file\n\n"
    ++ "Usage: [OPTIONS] <PATCH> [INPUT]\n\n"
    ++ "Arguments:\n"
    ++ "  <PATCH>  The patch file\n"
    ++ "  [INPUT]  The Go file, or else the standard input\n\n"
    ++ "Options:\n"
    ++ "  -w, --write         Write the result back to the input file\n"
    ++ "      --skip-imports  Leave import declarations as they are\n"
    ++ "      --dump-patch    Print both sides of every patch\n"
    ++ "      --dump-tree     Print the tree of the result\n"
    ++ "  -h, --help          Print help\n"
    ++ "  -V, --version       Print version\n"

/-- The answer to a question. -/
def Question.answer : Question → String
  | help => helpText
  | version => versionText

section

variable {m : Type → Type} [Monad m]

/-- Reads a document; messages name it as the user did. -/
def Host.document (host : Host m) (name : String) : ExceptT Failure m Document := do
  let file := FileName.absolute (← host.currentDir) name
  match ← host.load file with
  | .ok text => return ⟨name, text.toList⟩
  | .error reason => throw (.unreadable file reason)

/-- Reads the source: a file, or the standard input. -/
def Host.source (host : Host m) : Option String → ExceptT Failure m Document
  | some name => host.document name
  | none => do return ⟨"<stdin>", (← host.readInput).toList⟩

/-- Writes a result: into the input file, or to the standard output. -/
def Host.deliver (host : Host m) (a : Arguments) (text : String) : ExceptT Failure m Unit := do
  match a.input, a.has .write with
  | some name, true =>
    match ← host.save name text with
    | .ok _ => return
    | .error reason => throw (.unwritable reason)
  | _, _ => host.say text

/-- Does what the arguments ask for. -/
def perform (host : Host m) (a : Arguments) : ExceptT Failure m Unit := do
  let patch ← host.document a.patch
  let source ← host.source a.input
  let options := { Recipe.Options.default with fixImports := !a.has .skipImports }
  let report := Job.run ⟨patch, source, options, a.has .dumpPatch, a.has .dumpTree⟩
  host.say report.shown
  report.remarks.forM fun r => host.complain r
  host.deliver a (← report.result)

/-- Runs the program: the exit code. -/
def run (host : Host m) (args : List String) : m UInt32 := do
  match Arguments.read args with
  | .error (.answer q) =>
    host.say q.answer
    return exitDone
  | .error (.usage e) =>
    host.complain ("error: " ++ e.message)
    return exitUsage
  | .ok a =>
    match ← (perform host a).run with
    | .ok _ => return exitDone
    | .error f =>
      host.complain f.message
      return exitFailed

end

end Graft.CommandLine
