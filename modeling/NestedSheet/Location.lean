import NestedSheet.Node.Basic
import NestedSheet.Path
import NestedSheet.Text.Percent

/-!
# Locations in the output

The location of a rule in a form that tools can read back from the output: a
directive with one rule for the file, as a URI, and one for the line.  The values
are written as identifiers, so every character that may not stand in one is
escaped.  What is not known about a location is empty.
-/

namespace NestedSheet.Location

/-! ## Identifiers -/

/-- May the character stand in an identifier as it is? -/
def isPlain (c : Char) : Bool :=
  c.isAlphanum || c == '_' || c == '-'

/-- A text with a backslash before every character that is not plain. -/
def escapeAll (t : Text) : Text :=
  t.flatMap fun c => if isPlain c then [c] else ['\\', c]

/-- A number in hexadecimal, in lower case and with at least four digits. -/
def hex4 (n : Nat) : Text :=
  let digits := Nat.toDigits 16 n
  List.replicate (4 - digits.length) '0' ++ digits

/-- A text with its first character as a hexadecimal escape if an identifier
cannot start with it. -/
def escapeFirst : Text → Text
  | [] => []
  | c :: cs => if c.isDigit || c == '-' then '\\' :: hex4 c.toNat ++ ' ' :: cs else c :: cs

/-- A text as an identifier. -/
def identifier (t : Text) : Text :=
  escapeFirst (escapeAll t)

/-! ## Location of a rule -/

/-- The file of an origin as a URI. -/
def fileUri (directory : Text) (origin : Origin) : Text :=
  match origin.filename with
  | some (c :: cs) => "file://".toList ++ Text.percentQuoted (Path.absolute directory (c :: cs))
  | _ => []

/-- The line of an origin in decimal. -/
def lineText (origin : Origin) : Text :=
  match origin.line with
  | some line => Text.ofInt line
  | none => []

/-- The rule that holds one value of a location. -/
def entry (key value : Text) : Node :=
  .rule { resolved := some [[escapeAll key]] }
    [.declaration { name := "font-family".toList, value := identifier value }]

/-- The directive that holds the location of an origin. -/
def directive (directory : Text) (origin : Origin) : Node :=
  .block { value := "@media -sass-debug-info".toList }
    [entry "filename".toList (fileUri directory origin), entry "line".toList (lineText origin)]

end NestedSheet.Location
