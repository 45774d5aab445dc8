/-! # File names

File names are made absolute and clean without a look at the disk: repeated slashes and steps to the
same directory vanish, and a step up takes back the step before it.
-/

namespace Graft.FileName

/-- Whether a file name starts from the root. -/
def isAbsolute (name : String) : Bool := name.toList.head? == some '/'

/-- The parts of a file name between its slashes. -/
def parts (name : List Char) : List String :=
  let cut := name.foldr
    (fun c ps =>
      match ps with
      | [] => [[c]]
      | p :: rest => if c = '/' then [] :: p :: rest else (c :: p) :: rest)
    [[]]
  (cut.map String.ofList).filter fun p => !p.isEmpty && p != "."

/-- Goes on by one part from the parts taken so far, last one first. -/
def step (absolute : Bool) (taken : List String) (part : String) : List String :=
  if part == ".." then
    match taken with
    | [] => if absolute then [] else [".."]
    | last :: rest => if last == ".." then ".." :: taken else rest
  else part :: taken

/-- A file name without detours. -/
def clean (name : String) : String :=
  let absolute := isAbsolute name
  let taken := ((parts name.toList).foldl (step absolute) []).reverse
  let text := "/".intercalate taken
  if absolute then "/" ++ text else if text.isEmpty then "." else text

/-- The clean absolute form of a file name, seen from a directory. -/
def absolute (dir name : String) : String :=
  clean (if isAbsolute name then name else dir ++ "/" ++ name)

end Graft.FileName
