/-! # Arguments

What the command line asks for.  Arguments are read from left to right: switches may stand anywhere,
`--` ends them, and everything else names a file, the patch first.  A question for help or the
version is answered as soon as it is reached, whatever follows; a mistake found before it wins.
-/

namespace Graft.CommandLine

/-- A choice that a switch turns on. -/
inductive Switch where
  /-- The result goes back into the input file. -/
  | write
  /-- Import declarations stay as they are. -/
  | skipImports
  /-- Both sides of every patch are shown. -/
  | dumpPatch
  /-- The tree of the result is shown. -/
  | dumpTree
  deriving DecidableEq

/-- A question that is answered in place of any work. -/
inductive Question where
  | help
  | version
  deriving DecidableEq

/-- What is wrong with the arguments. -/
inductive UsageError where
  | unknownSwitch (text : String)
  | switchWithValue (text : String)
  | repeatedSwitch (s : Switch)
  | surplusFile (name : String)
  | emptyFileName
  | missingPatch
  /-- A result cannot go back into a file when there is none. -/
  | writeWithoutInput
  deriving DecidableEq

/-- What the arguments ask for. -/
structure Arguments where
  /-- The name of the patch file. -/
  patch : String
  /-- The name of the source file; the standard input is read when there is none. -/
  input : Option String
  switches : List Switch
  deriving DecidableEq

/-- Whether a switch is on. -/
def Arguments.has (a : Arguments) (s : Switch) : Bool := a.switches.contains s

/-- A mistake in the arguments, or a question. -/
inductive Exit where
  | usage (e : UsageError)
  | answer (q : Question)
  deriving DecidableEq

/-- What a switch or question is spelled like. -/
def Switch.spelling : Switch → String
  | write => "--write"
  | skipImports => "--skip-imports"
  | dumpPatch => "--dump-patch"
  | dumpTree => "--dump-tree"

/-- The wording of a mistake. -/
def UsageError.message : UsageError → String
  | unknownSwitch text => "unexpected argument " ++ text
  | switchWithValue text => "unexpected value in " ++ text
  | repeatedSwitch s => s.spelling ++ " cannot be used multiple times"
  | surplusFile name => "unexpected argument " ++ name
  | emptyFileName => "a file name is required"
  | missingPatch => "the name of a patch file is required"
  | writeWithoutInput => "--write requires the name of a source file"

/-- A switch or question by its long name. -/
def longNamed? : String → Option (Switch ⊕ Question)
  | "write" => some (.inl .write)
  | "skip-imports" => some (.inl .skipImports)
  | "dump-patch" => some (.inl .dumpPatch)
  | "dump-tree" => some (.inl .dumpTree)
  | "help" => some (.inr .help)
  | "version" => some (.inr .version)
  | _ => none

/-- A switch or question by its letter. -/
def shortNamed? : Char → Option (Switch ⊕ Question)
  | 'w' => some (.inl .write)
  | 'h' => some (.inr .help)
  | 'V' => some (.inr .version)
  | _ => none

namespace Arguments

/-- What has been read so far. -/
structure Partly where
  files : List String
  switches : List Switch

/-- Turns a switch on, or breaks off for a question. -/
def Partly.take (p : Partly) : Switch ⊕ Question → Except Exit Partly
  | .inl s =>
    if p.switches.contains s then .error (.usage (.repeatedSwitch s))
    else .ok { p with switches := p.switches ++ [s] }
  | .inr q => .error (.answer q)

/-- Adds a file. -/
def Partly.file (p : Partly) (name : String) : Except Exit Partly :=
  if name.isEmpty then .error (.usage .emptyFileName)
  else if p.files.length < 2 then .ok { p with files := p.files ++ [name] }
  else .error (.usage (.surplusFile name))

/-- Reads the letters behind a single dash. -/
def Partly.letters (p : Partly) : List Char → Except Exit Partly
  | [] => .ok p
  | c :: cs =>
    match shortNamed? c with
    | none => .error (.usage (.unknownSwitch (String.ofList ['-', c])))
    | some s => (p.take s).bind fun p => p.letters cs

/-- Reads a long switch without its dashes. -/
def Partly.long (p : Partly) (text : List Char) : Except Exit Partly :=
  let name := String.ofList (text.takeWhile (· != '='))
  let shown := "--" ++ String.ofList text
  match longNamed? name with
  | none => .error (.usage (.unknownSwitch shown))
  | some s => if text.contains '=' then .error (.usage (.switchWithValue shown)) else p.take s

/-- Reads arguments; behind `--` all of them name files. -/
def readAll (onlyFiles : Bool) (p : Partly) : List String → Except Exit Partly
  | [] => .ok p
  | arg :: args =>
    if onlyFiles then (p.file arg).bind fun p => readAll true p args
    else
      match arg.toList with
      | ['-', '-'] => readAll true p args
      | '-' :: '-' :: text => (p.long text).bind fun p => readAll false p args
      | '-' :: c :: cs => (p.letters (c :: cs)).bind fun p => readAll false p args
      | _ => (p.file arg).bind fun p => readAll false p args

/-- Reads the arguments of the program. -/
def read (args : List String) : Except Exit Arguments := do
  let p ← readAll false ⟨[], []⟩ args
  match p.files with
  | [] => throw (.usage .missingPatch)
  | patch :: rest =>
    if rest.isEmpty && p.switches.contains .write then throw (.usage .writeWithoutInput)
    return ⟨patch, rest.head?, p.switches⟩

end Arguments

end Graft.CommandLine
