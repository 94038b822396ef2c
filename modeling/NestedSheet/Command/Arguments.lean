import NestedSheet.Options
import NestedSheet.Text.Decimal

/-!
# Arguments of the command

The words after the name of the command are files and options.  An option is a
hyphen with a letter, after which further letters may follow, or two hyphens with
a name, which may be cut short as long as it is clear which one is meant.  The
value of an option is attached to it, with or without an equals sign after a
letter and with one after a name, or is the next word.  After `--` every word is
a file.

A hyphen and a number are a plain word.  An option that `--` is attached to is
given without a value.

The files have to stand together: words after a later option are left over, like
options that do not exist.
-/

namespace NestedSheet.Command

/-! ## Options of the command -/

/-- An option of the command. -/
inductive Flag where
  | help
  | verbose
  | output
  | style
  | define
  | base
  | profile
  | lineComments
  | debugInfo
deriving DecidableEq, Repr, Inhabited

namespace Flag

/-- All options, in the order in which they are offered. -/
def all : List Flag :=
  [help, verbose, output, style, define, base, profile, lineComments, debugInfo]

/-- The letter of an option, if it has one. -/
def letter? : Flag → Option Char
  | help => some 'h'
  | verbose => some 'v'
  | output => some 'o'
  | style => some 't'
  | define => some 'D'
  | base | profile | lineComments | debugInfo => none

/-- The name of an option. -/
def longName : Flag → Text
  | help => "--help".toList
  | verbose => "--verbose".toList
  | output => "--output".toList
  | style => "--style".toList
  | define => "--define".toList
  | base => "--base".toList
  | profile => "--profile".toList
  | lineComments => "--line-comments".toList
  | debugInfo => "--debug-info".toList

/-- Does the option have a value? -/
def takesValue : Flag → Bool
  | output | style | define | base => true
  | help | verbose | profile | lineComments | debugInfo => false

/-- The option as it is named in messages. -/
def title (flag : Flag) : Text :=
  match flag.letter? with
  | some c => '-' :: c :: '/' :: flag.longName
  | none => flag.longName

/-- The option of a letter. -/
def ofLetter? (c : Char) : Option Flag :=
  all.find? fun flag => flag.letter? = some c

/-- The option of a name with its hyphens. -/
def ofName? (t : Text) : Option Flag :=
  all.find? fun flag => flag.longName = t

/-- The options whose names start with this text. -/
def startingWith (t : Text) : List Flag :=
  all.filter fun flag => Text.startsWith flag.longName t

end Flag

/-! ## Refusals -/

/-- Why the arguments are refused. -/
inductive Refusal where
  | ambiguous (word : Text) (flags : List Flag)
  | missingValue (flag : Flag)
  | ignoredValue (flag : Flag) (value : Text)
  | unknownStyle (name : Text)
  | conflict (flag other : Flag)
  | unrecognized (words : List Text)
deriving DecidableEq, Repr, Inhabited

/-- A message about an option. -/
def aboutFlag (flag : Flag) (message : Text) : Text :=
  "argument ".toList ++ flag.title ++ ": ".toList ++ message

/-- What is said about arguments that are refused. -/
def Refusal.message : Refusal → Text
  | ambiguous word flags =>
    "ambiguous option: ".toList ++ word ++ " could match ".toList
      ++ (", ".toList).intercalate (flags.map Flag.longName)
  | missingValue flag => aboutFlag flag "expected one argument".toList
  | ignoredValue flag value =>
    aboutFlag flag ("ignored explicit argument ".toList ++ Text.quoted value)
  | unknownStyle name =>
    aboutFlag .style ("invalid choice: ".toList ++ Text.quoted name ++ " (choose from ".toList
      ++ (", ".toList).intercalate (Style.all.map fun style => Text.quoted style.name) ++ [')'])
  | conflict flag other => aboutFlag flag ("not allowed with argument ".toList ++ other.title)
  | unrecognized words => "unrecognized arguments: ".toList ++ [' '].intercalate words

/-- Why the command does not start. -/
inductive Stop where
  /-- Help was asked for. -/
  | help
  | refused (refusal : Refusal)
deriving DecidableEq, Repr, Inhabited

/-! ## Kinds of words -/

/-- The ways to write an option. -/
inductive Spelling where
  | letter
  | name
deriving DecidableEq, Repr, Inhabited

/-- A word of the command line. -/
inductive Argument where
  | word (text : Text)
  /-- The word `--`. -/
  | separator
  /-- An option, the way it is written, and the text attached to it. -/
  | option (flag : Flag) (spelling : Spelling) (attached : Option Text)
  /-- A word that looks like an option but is none. -/
  | unknown (text : Text)
deriving DecidableEq, Repr, Inhabited

/-- The word `--`. -/
def separatorWord : Text := ['-', '-']

/-- A word split at its first equals sign. -/
def splitEquals (t : Text) : Text × Option Text :=
  match t.dropWhile (· != '=') with
  | [] => (t, none)
  | _ :: value => (t.takeWhile (· != '='), some value)

/-- The text without the newline at its end, if there is one. -/
def dropNewline (t : Text) : Text :=
  if t.endsWith '\n' then t.dropLast else t

/-- Is the text a number: digits, or a point and digits after any digits? -/
def isNumber (t : Text) : Bool :=
  match t.dropWhile Text.isDecimal with
  | [] => !t.isEmpty
  | '.' :: fraction => !fraction.isEmpty && fraction.all Text.isDecimal
  | _ => false

/-- Is the word a hyphen and a number?  A newline may stand at its end. -/
def isNegativeNumber (t : Text) : Bool :=
  match t with
  | '-' :: number => isNumber (dropNewline number)
  | _ => false

/-- An option whose name is cut short or has a value attached, if the word is
one. -/
def abbreviated? (t : Text) : Except Refusal (Option Argument) :=
  match t with
  | '-' :: '-' :: _ =>
    let (name, attached) := splitEquals t
    match Flag.startingWith name with
    | [] => .ok none
    | [flag] => .ok (some (.option flag .name attached))
    | flags => .error (.ambiguous t flags)
  | '-' :: c :: rest => .ok ((Flag.ofLetter? c).map fun flag => .option flag .letter (some rest))
  | _ => .ok none

/-- An option whose letter or name stands in full before the attached text, if
there is one of this name. -/
def Argument.ofName? (name : Text) (attached : Option Text) : Option Argument :=
  match name with
  | ['-', c] => (Flag.ofLetter? c).map fun flag => .option flag .letter attached
  | _ => (Flag.ofName? name).map fun flag => .option flag .name attached

/-- The kind of a word before the separator. -/
def classify (t : Text) : Except Refusal Argument :=
  match t with
  | '-' :: _ :: _ =>
    match Argument.ofName? t none with
    | some argument => .ok argument
    | none =>
      let (name, attached) := splitEquals t
      match Argument.ofName? name attached with
      | some argument => .ok argument
      | none => do
        match ← abbreviated? t with
        | some argument => pure argument
        | none => pure (if isNegativeNumber t || t.contains ' ' then .word t else .unknown t)
  | _ => .ok (.word t)

/-- The kinds of all words; after the separator all are plain words. -/
def classifyAll : List Text → Except Refusal (List Argument)
  | [] => pure []
  | t :: words =>
    if t = separatorWord then pure (.separator :: words.map .word)
    else do
      let argument ← classify t
      let arguments ← classifyAll words
      pure (argument :: arguments)

/-! ## Requests -/

/-- What the command is asked to do. -/
structure Request where
  files : List Text := []
  verbose : Bool := false
  /-- The file to write, if it is not the standard output. -/
  output : Option Text := none
  /-- The style of the output; there is none when it was given without a value. -/
  style : Option Style := some .nested
  definitions : List Text := []
  base : Option Text := none
  profile : Bool := false
  note : SourceNote := .off
deriving Repr, Inhabited

/-- Whether the files have been read. -/
inductive Progress where
  | before
  | inside
  | after
deriving DecidableEq, Repr, Inhabited

/-- Arguments that are being read. -/
structure Reading where
  request : Request := {}
  progress : Progress := .before
  /-- The words that are left over. -/
  leftOver : List Text := []
deriving Repr, Inhabited

namespace Request

/-- Asks for one kind of note, unless the other one was asked for. -/
def setNote (request : Request) (flag other : Flag) (note : SourceNote) : Except Stop Request :=
  if request.note = .off ∨ request.note = note then .ok { request with note }
  else .error (.refused (.conflict flag other))

/-- Asks for the style of a name. -/
def setStyle (request : Request) (name : Text) : Except Stop Request :=
  match Style.ofName? name with
  | some style => .ok { request with style := some style }
  | none => .error (.refused (.unknownStyle name))

/-- The definition that an option without a value makes, which is malformed. -/
def noDefinition : Text := ['[', ']']

/-- The request after one more option with its value, if it has one.  Without a
value the output is the standard output again, the base is empty, the definition
is malformed, and there is no style. -/
def set (request : Request) (flag : Flag) (value : Option Text) : Except Stop Request :=
  match flag with
  | .help => .error .help
  | .verbose => .ok { request with verbose := true }
  | .output => .ok { request with output := value }
  | .style =>
    match value with
    | some name => request.setStyle name
    | none => .ok { request with style := none }
  | .define =>
    .ok { request with definitions := request.definitions ++ [value.getD noDefinition] }
  | .base => .ok { request with base := some (value.getD []) }
  | .profile => .ok { request with profile := true }
  | .lineComments => request.setNote .lineComments .debugInfo .comment
  | .debugInfo => request.setNote .debugInfo .lineComments .structured

/-- The request after several options, the last one with this value. -/
def setAll (request : Request) (flags : List Flag) (value : Option Text) :
    Except Stop Request :=
  flags.foldlM (fun request flag => request.set flag value) request

end Request

/-! ## Options in one word -/

/-- The options that one word stands for. -/
structure Cluster where
  flags : List Flag
  /-- The text attached to the last one, if there is one. -/
  attached : Option Text := none
deriving DecidableEq, Repr, Inhabited

namespace Cluster

/-- One more option before the others. -/
def cons (flag : Flag) (cluster : Cluster) : Cluster :=
  { cluster with flags := flag :: cluster.flags }

/-- An option written by its name with a text attached. -/
def ofName (flag : Flag) (t : Text) : Except Refusal Cluster :=
  if flag.takesValue then .ok { flags := [flag], attached := some t }
  else .error (.ignoredValue flag t)

/-- An option written by its letter with a text attached: its value, or the
letters of further options, the last of which may have the rest as its value. -/
def ofLetter (flag : Flag) : Text → Except Refusal Cluster
  | [] => ofName flag []
  | c :: cs =>
    if flag.takesValue then .ok { flags := [flag], attached := some (c :: cs) }
    else match Flag.ofLetter? c with
      | none => .error (.ignoredValue flag (c :: cs))
      | some next =>
        if cs.isEmpty then .ok { flags := [flag, next] }
        else (ofLetter next cs).map (cons flag)

/-- The options of a word. -/
def ofAttached (flag : Flag) : Spelling → Option Text → Except Refusal Cluster
  | _, none => .ok { flags := [flag] }
  | .letter, some t => ofLetter flag t
  | .name, some t => ofName flag t

/-- The option that still needs a value, if there is one. -/
def wanting? (cluster : Cluster) : Option Flag :=
  if cluster.attached.isSome then none else cluster.flags.getLast?.filter Flag.takesValue

/-- The value of the last option, if it is attached.  The word `--` only separates
words, so it is no value. -/
def value? (cluster : Cluster) : Option Text :=
  cluster.attached.filter (· != separatorWord)

end Cluster

/-! ## Reading the arguments -/

namespace Reading

/-- The reading after a plain word. -/
def addWord (reading : Reading) (t : Text) : Reading :=
  match reading.progress with
  | .after => { reading with leftOver := reading.leftOver ++ [t] }
  | _ => { reading with
      request := { reading.request with files := reading.request.files ++ [t] }
      progress := .inside }

/-- The reading at an option: files that were being read have ended. -/
def endFiles (reading : Reading) : Reading :=
  if reading.progress = .inside then { reading with progress := .after } else reading

/-- The reading after the options of a word, the last one with this value. -/
def addFlags (reading : Reading) (flags : List Flag) (value : Option Text) :
    Except Stop Reading := do
  let request ← reading.request.setAll flags value
  pure { reading with request }

/-- Reads the arguments one after the other. -/
def run (reading : Reading) : List Argument → Except Stop Reading
  | [] => .ok reading
  | .word t :: arguments => (reading.addWord t).run arguments
  | .separator :: arguments => (reading.addWord separatorWord).run arguments
  | .unknown t :: arguments =>
    { reading.endFiles with leftOver := reading.leftOver ++ [t] }.run arguments
  | .option flag spelling attached :: arguments => do
    let cluster ← (Cluster.ofAttached flag spelling attached).mapError .refused
    match cluster.wanting?, arguments with
    | none, arguments => do
      let reading ← reading.endFiles.addFlags cluster.flags cluster.value?
      reading.run arguments
    | some _, .word t :: arguments => do
      let reading ← reading.endFiles.addFlags cluster.flags (some t)
      reading.run arguments
    | some wanting, _ => .error (.refused (.missingValue wanting))

end Reading

/-- Reads the arguments of the command.  The separator among the files is not one
of them. -/
def Request.ofArguments (words : List Text) : Except Stop Request := do
  let arguments ← (classifyAll words).mapError .refused
  let reading ← Reading.run {} arguments
  if reading.leftOver.isEmpty then
    pure { reading.request with files := reading.request.files.erase separatorWord }
  else .error (.refused (.unrecognized reading.leftOver))

end NestedSheet.Command
