import NestedSheet.Text.Basic

/-!
# Origins

Where a node of a stylesheet comes from: a line and a file, each of which may
be unknown.  Errors report the origin of the node that they are about.
-/

namespace NestedSheet

/-- The line and the file that something comes from, as far as known. -/
structure Origin where
  line : Option Int := none
  filename : Option Text := none
deriving DecidableEq, Repr, Inhabited

namespace Origin

/-- The origin, with the parts that are unknown taken from another one. -/
def orElse (origin other : Origin) : Origin :=
  ⟨origin.line <|> other.line, origin.filename <|> other.filename⟩

/-- The file as it stands in a report. -/
def file (origin : Origin) : Text :=
  match origin.filename with
  | some (c :: cs) => c :: cs
  | _ => "<string>".toList

/-- A message with the place that it is about before it, if the line is known. -/
def report (origin : Origin) (message : Text) : Text :=
  match origin.line with
  | none => message
  | some line => origin.file ++ ':' :: Text.ofInt line ++ ':' :: ' ' :: message

end Origin

end NestedSheet
