import NestedSheet.Text.Basic

/-!
# Blank characters

The characters that count as whitespace between the words of a text: the ASCII
controls that move the cursor, the four separators U+001C to U+001F, and the
spaces and line separators of Unicode.  Zero-width characters are not blank.
-/

namespace NestedSheet.Text

/-- Is the character whitespace? -/
def isBlank (c : Char) : Bool :=
  let n := c.toNat
  (0x09 ≤ n && n ≤ 0x0D) || (0x1C ≤ n && n ≤ 0x20) || n == 0x85 || n == 0xA0 || n == 0x1680
    || (0x2000 ≤ n && n ≤ 0x200A) || n == 0x2028 || n == 0x2029 || n == 0x202F || n == 0x205F
    || n == 0x3000

/-- The text without the blanks at its start. -/
def stripStart (t : Text) : Text :=
  t.dropWhile isBlank

/-- The text without the blanks at its end. -/
def stripEnd (t : Text) : Text :=
  dropEndWhile isBlank t

/-- The text without the blanks at either end. -/
def strip (t : Text) : Text :=
  stripEnd (stripStart t)

/-- The lines of a text that are not blank, each without the blanks at its ends. -/
def strippedLines (t : Text) : List Text :=
  ((cut '\n' t).map strip).filter fun line => !line.isEmpty

end NestedSheet.Text
