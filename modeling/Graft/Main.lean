import Graft.CommandLine.Run

/-! # The command line

Connects the program to the system it runs on.
-/

namespace Graft.Main

/-- What the system says about an input or output error. -/
def reason : IO.Error → String
  | .noFileOrDirectory _ code details | .permissionDenied _ code details
  | .inappropriateType _ code details | .invalidArgument _ code details
  | .resourceExhausted _ code details | .resourceBusy code details
  | .unsupportedOperation code details | .hardwareFault code details | .otherError code details =>
    details ++ " (os error " ++ toString code.toNat ++ ")"
  | e => toString e

/-- Runs an action and puts its error into words. -/
def attempt {α : Type} (action : IO α) : IO (Except String α) := do
  try
    return .ok (← action)
  catch e =>
    return .error (reason e)

/-- Reads a file as text. -/
def readText (file : String) : IO (Except String String) := do
  match ← attempt (do (← IO.FS.Handle.mk file .read).readBinToEnd) with
  | .error e => return .error e
  | .ok bytes =>
    match String.fromUTF8? bytes with
    | some text => return .ok text
    | none => return .error "stream did not contain valid UTF-8"

/-- The system the program runs on. -/
def system : CommandLine.Host IO where
  currentDir := do return toString (← IO.currentDir)
  load := readText
  save file text := attempt (IO.FS.writeFile file text)
  readInput := do (← IO.getStdin).readToEnd
  say := IO.print
  complain := IO.eprintln

end Graft.Main

/-- Applies a patch file to a source file. -/
def main (args : List String) : IO UInt32 := Graft.CommandLine.run Graft.Main.system args
