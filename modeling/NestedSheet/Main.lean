import NestedSheet.Command.Run

/-!
# The command

Reads the files that the arguments name, runs the command on them, and writes what
it changed.
-/

namespace NestedSheet.Command

/-- The paths that a request names. -/
def Request.paths (request : Request) : List Text :=
  request.files.filter (· != inputWord) ++ request.output.toList

/-- Adds what a path leads to: a file with its content, a directory, or nothing but
the directory that it would be in. -/
def snapshot (directory : Text) (disk : Disk) (path : Text) : IO Disk := do
  let place := Path.parts (Path.absolute directory path)
  let disk := { disk with directories := disk.directories ++ [place.dropLast] }
  try
    let content ← IO.FS.readFile (String.ofList path)
    return { disk with files := disk.files ++ [(place, content.toList)] }
  catch
    | .noFileOrDirectory .. => return disk
    | _ => return { disk with directories := disk.directories ++ [place] }

/-- What the arguments let the command see. -/
def gather (directory : Text) (words : List Text) : IO World := do
  match Request.ofArguments words with
  | .error _ => return {}
  | .ok request =>
    let disk ← request.paths.foldlM (snapshot directory)
      { directories := [Path.parts directory] }
    let input ← if request.files.contains inputWord then (← IO.getStdin).readToEnd else pure ""
    return { disk, input := input.toList }

/-- The exit code of a run, and what is said about it. -/
def Ending.conclude : Ending → UInt32 × Text
  | .status code => (UInt32.ofNat code, [])
  | .stop .help => (0, usage)
  | .stop (.refused refusal) => (2, "ncss: error: ".toList ++ refusal.message ++ ['\n'])
  | .abort (.file _) => (1, "ncss: a file cannot be read or written\n".toList)
  | .abort (.source cause) => (1, cause.message ++ ['\n'])
  | .abort .noStyle => (1, "ncss: no style is named\n".toList)

end NestedSheet.Command

open NestedSheet NestedSheet.Command in
/-- Runs the command with the arguments of the program. -/
def main (arguments : List String) : IO UInt32 := do
  let directory := (toString (← IO.currentDir)).toList
  let words := arguments.map String.toList
  let before ← gather directory words
  let (after, ending) := run directory words before
  for (place, content) in after.disk.changedSince before.disk do
    IO.FS.writeFile (String.ofList ('/' :: ['/'].intercalate place)) (String.ofList content)
  IO.print (String.ofList after.output)
  IO.eprint (String.ofList after.errors)
  for report in after.log do
    IO.eprintln (String.ofList report.line)
  let (code, message) := ending.conclude
  IO.eprint (String.ofList message)
  return code
