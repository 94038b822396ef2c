import NestedSheet.Command.Arguments
import NestedSheet.Command.Disk
import NestedSheet.Css

/-!
# Running the command

The command compiles its files one after the other and writes the CSS of each to
the output.  A file that is missing or cannot be compiled is reported and skipped,
and the status tells whether there was one.

The output file is emptied before the first file is read, and what is written to
it is there when the next file is read.
-/

namespace NestedSheet.Command

/-- What the command reports while it runs. -/
inductive Report where
  | error (message : Text)
  | info (message : Text)
  | debug (message : Text)
deriving DecidableEq, Repr, Inhabited

/-- A report as a line of the log. -/
def Report.line : Report → Text
  | error message => "ERROR ".toList ++ message
  | info message => "INFO ".toList ++ message
  | debug message => "DEBUG ".toList ++ message

/-- Why a run breaks off. -/
inductive Abort where
  | file (cause : FileError)
  /-- An error of a source that is none of its syntax. -/
  | source (cause : ReadError)
  /-- A style that was asked for without naming one. -/
  | noStyle
deriving DecidableEq, Repr, Inhabited

/-- How a run ends. -/
inductive Ending where
  | status (code : Nat)
  | stop (cause : Stop)
  | abort (cause : Abort)
deriving DecidableEq, Repr, Inhabited

/-- The world that a run changes. -/
structure World where
  disk : Disk := {}
  /-- What can still be read from the standard input. -/
  input : Text := []
  output : Text := []
  errors : Text := []
  log : List Report := []
deriving Repr, Inhabited

namespace World

/-- The world after a report. -/
def say (world : World) (report : Report) : World :=
  { world with log := world.log ++ [report] }

/-- The world after a text is written to a file, or to the standard output. -/
def put (world : World) (target : Option Place) (t : Text) : World :=
  match target with
  | none => { world with output := world.output ++ t }
  | some place =>
    { world with disk := world.disk.write place ((world.disk.content? place).getD [] ++ t) }

end World

/-- What stays the same during a run. -/
structure Job where
  request : Request
  options : Options
  /-- The file that is written, or the standard output. -/
  target : Option Place

/-- The word that stands for the standard input. -/
def inputWord : Text := ['-']

/-- The times that are reported for each file. -/
def timings : List Report :=
  [.info "Parsing time".toList, .info "Compiling time".toList, .info "Writing time".toList]

/-- What is said about a compiled sheet. -/
def compiledMessage (before after : Sheet) : Text :=
  let path := match before.path with
    | some (c :: cs) => c :: cs
    | _ => "<string>".toList
  "Compiled ".toList ++ path ++ ": ".toList ++ Text.ofNat before.children.length
    ++ " top-level nodes into ".toList ++ Text.ofNat after.children.length

/-- What is said about a file that cannot be compiled. -/
def failedMessage (path : Text) (e : Error) : Text :=
  "Compilation of `".toList ++ path ++ "` failed: ".toList ++ e.message

/-! ## One file -/

/-- The result of working on one file: the world after it, and whether the file
was compiled, or why the run breaks off. -/
abbrev Step := World × Except Abort Bool

/-- The world after the report of a file that cannot be compiled.  Of the errors of a source
only those of its syntax are reported. -/
def reportFailure (world : World) (path : Text) (e : Error) : Step :=
  match e with
  | .read cause =>
    if cause.isSyntax then (world.say (.error (failedMessage path (.read cause))), .ok false)
    else (world, .error (.source cause))
  | .compile cause => (world.say (.error (failedMessage path (.compile cause))), .ok false)

/-- Compiles the text of a file and writes its CSS. -/
def compileInput (job : Job) (world : World) (path : Text) (sheetPath : Option Text) (t : Text) :
    Step :=
  match Sheet.read sheetPath t with
  | .error e => reportFailure world path (.read e)
  | .ok sheet =>
    match sheet.compile job.options with
    | .error e => reportFailure world path (.compile e)
    | .ok flat =>
      let world := if job.request.verbose then world.say (.debug (compiledMessage sheet flat))
        else world
      match flat.render job.options with
      | .error e => reportFailure world path (.compile e)
      | .ok css =>
        let world := world.put job.target css
        (if job.request.profile then timings.foldl World.say world else world, .ok true)

/-- Works on one file: the standard input, which is then used up, or a path. -/
def runInput (job : Job) (world : World) (path : Text) : Step :=
  if path = inputWord then compileInput job { world with input := [] } path none world.input
  else if world.disk.pathExists job.options.directory path then
    match world.disk.read job.options.directory path with
    | .ok t => compileInput job world path (some path) t
    | .error e => (world, .error (.file e))
  else (world.say (.error ("Could not find path: ".toList ++ path)), .ok false)

/-! ## All files -/

/-- Works on the files one after the other; `good` tells whether all files before
them were compiled. -/
def runInputs (job : Job) (good : Bool) (world : World) : List Text → World × Ending
  | [] => (world, .status (if good then 0 else 1))
  | path :: paths =>
    match runInput job world path with
    | (world, .ok compiled) => runInputs job (good && compiled) world paths
    | (world, .error e) => (world, .abort e)

/-- What is said when no file is given. -/
def usage : Text := "ncss FILE...\n".toList

/-- The directory that file names are shown relative to: the one that was asked
for, or else the directory of the output file. -/
def Request.baseIn (request : Request) (directory : Text) : Option Text :=
  match request.base, request.output with
  | some base, _ => some base
  | none, some (c :: cs) => some (Path.dirname (Path.absolute directory (c :: cs)))
  | none, _ => none

/-- The options of a compilation that was asked for. -/
def Request.options (request : Request) (directory : Text) (environment : Environment) :
    Except Abort Options :=
  match request.style with
  | none => .error .noStyle
  | some style =>
    .ok { style, note := request.note, base := request.baseIn directory, environment, directory }

/-- Opens the output, which empties it, and works on the files. -/
def Request.execute (request : Request) (options : Options) (world : World) : World × Ending :=
  match request.output with
  | some (c :: cs) =>
    match world.disk.findForWriting options.directory (c :: cs) with
    | .ok place =>
      runInputs ⟨request, options, some place⟩ true
        { world with disk := world.disk.write place [] } request.files
    | .error e => (world, .abort (.file e))
  | _ => runInputs ⟨request, options, none⟩ true world request.files

/-- Does what was asked for. -/
def Request.run (request : Request) (directory : Text) (world : World) : World × Ending :=
  if request.files.isEmpty then ({ world with errors := world.errors ++ usage }, .status 1)
  else match Environment.ofDefinitions request.definitions with
    | .error e => (world.say (.error e.message), .status 1)
    | .ok environment =>
      match request.options directory environment with
      | .error e => (world, .abort e)
      | .ok options => request.execute options world

/-- Runs the command with arguments in a directory. -/
def run (directory : Text) (words : List Text) (world : World) : World × Ending :=
  match Request.ofArguments words with
  | .error stop => (world, .stop stop)
  | .ok request => request.run directory world

end NestedSheet.Command
