import NestedSheet.Text.Basic

/-!
# Percent quoting

A text as it stands in a URI: its UTF-8 bytes, where the letters, the digits
and a few other ASCII characters stand for themselves and every other byte is
written as a percent sign and two upper-case hexadecimal digits.
-/

namespace NestedSheet.Text

/-- The characters other than letters and digits that a file URI keeps: the
unreserved marks and the reserved characters that may stand in a path. -/
def uriMarks : Text :=
  "_.-~/;?:@&=+$,!*'()[]".toList

/-- Does the character stand for itself in a file URI? -/
def keptInUri (c : Char) : Bool :=
  c.isAlphanum || uriMarks.contains c

/-- The hexadecimal digit of a value below sixteen, in upper case. -/
def hexUpper (n : Nat) : Char :=
  (Nat.digitChar n).toUpper

/-- A byte as a percent sign and two digits. -/
def percentByte (b : UInt8) : Text :=
  ['%', hexUpper (b.toNat / 16), hexUpper (b.toNat % 16)]

/-- A text as it stands in a file URI. -/
def percentQuoted (t : Text) : Text :=
  t.flatMap fun c => if keptInUri c then [c] else (String.utf8EncodeChar c).flatMap percentByte

end NestedSheet.Text
