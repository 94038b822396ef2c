import NestedSheet.Text.Quoted
import NestedSheet.Variables

/-!
# Options

What drives the compilation of a stylesheet: the style of the output, the kind
of source notes, the directory that file names are shown relative to, and
the values of the variables.
-/

namespace NestedSheet

/-- The style of the output. -/
inductive Style where
  | nested
  | expanded
  | compact
  | compressed
deriving DecidableEq, Repr, Inhabited

/-- The kind of note that tells where a rule comes from. -/
inductive SourceNote where
  | off
  | comment
  | structured
deriving DecidableEq, Repr, Inhabited

namespace Style

/-- All the styles, in the order in which they are offered. -/
def all : List Style := [nested, expanded, compact, compressed]

/-- The name of a style. -/
def name : Style → Text
  | nested => "nested".toList
  | expanded => "expanded".toList
  | compact => "compact".toList
  | compressed => "compressed".toList

/-- The style of a name. -/
def ofName? (t : Text) : Option Style :=
  all.find? fun style => style.name = t

theorem ofName?_name (style : Style) : ofName? style.name = some style := by
  cases style <;> rfl

end Style

namespace SourceNote

/-- All the kinds of notes. -/
def all : List SourceNote := [off, comment, structured]

/-- The name of a kind of note. -/
def name : SourceNote → Text
  | off => "none".toList
  | comment => "comment".toList
  | structured => "structured".toList

/-- The kind of note of a name. -/
def ofName? (t : Text) : Option SourceNote :=
  all.find? fun note => note.name = t

theorem ofName?_name (note : SourceNote) : ofName? note.name = some note := by
  cases note <;> rfl

end SourceNote

/-- The options of a compilation. -/
structure Options where
  style : Style := .nested
  note : SourceNote := .off
  /-- The directory that file names are shown relative to. -/
  base : Option Text := none
  environment : Environment := {}
  /-- The directory that relative paths start from. -/
  directory : Text := ['/']
deriving Repr, Inhabited

/-- What is given for an option that is chosen by name: the name, or a number or
nothing, which choose none. -/
abbrev Choice := Option Value

/-- The name that is given, if it is a name. -/
def Choice.name? : Choice → Option Text
  | some (.text name) => some name
  | _ => none

/-- What is given, in a message. -/
def Choice.shown : Choice → Text
  | some (.text name) => Text.quoted name
  | some (.int n) => Text.ofInt n
  | none => "None".toList

/-- An option that has no such value. -/
inductive BadOption where
  | style (given : Choice)
  | note (given : Choice)
deriving DecidableEq, Repr

/-- What is said about a value that an option does not have. -/
def BadOption.message : BadOption → Text
  | .style given => given.shown ++ " is not a valid Style".toList
  | .note given => given.shown ++ " is not a valid DebugMode".toList

/-- New values for some of the options. -/
structure OptionChanges where
  style : Option Choice := none
  note : Option Choice := none
  base : Option (Option Text) := none
  environment : Option Environment := none

namespace Options

/-- The style that is given, or the error that there is none. -/
def styleNamed (given : Choice) : Except BadOption Style :=
  match given.name?.bind Style.ofName? with
  | some style => .ok style
  | none => .error (.style given)

/-- The kind of note that is given, or the error that there is none. -/
def noteNamed (given : Choice) : Except BadOption SourceNote :=
  match given.name?.bind SourceNote.ofName? with
  | some note => .ok note
  | none => .error (.note given)

/-- The options with new values for some of them. -/
def change (options : Options) (changes : OptionChanges) : Except BadOption Options := do
  let style ← (changes.style.map styleNamed).getD (.ok options.style)
  let note ← (changes.note.map noteNamed).getD (.ok options.note)
  pure { options with
    style, note
    base := changes.base.getD options.base
    environment := changes.environment.getD options.environment }

/-- The options in a message. -/
def describe (options : Options) : Text :=
  "<Options style=".toList ++ options.style.name ++ " debug=".toList ++ options.note.name
    ++ " basePath=".toList ++ options.base.getD "None".toList ++ ['>']

end Options

end NestedSheet
