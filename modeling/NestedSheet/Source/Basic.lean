import NestedSheet.Component.Name

/-!
# Source texts

The text of a source has one kind of line ending, so that lines and columns
agree with offsets.  The lines of a source are kept as a table of the offsets that
they start at, by which a position becomes an offset again.
-/

namespace NestedSheet

/-- The text with every line ending as a newline, and without NUL. -/
def normalizeNewlines : Text → Text
  | [] => []
  -- the two characters are one line ending
  | '\r' :: '\n' :: cs => '\n' :: normalizeNewlines cs
  | c :: cs =>
    (if c = '\r' ∨ c = '\x0c' then '\n' else if c = '\x00' then Component.replacement else c)
      :: normalizeNewlines cs

/-- Where the lines after the first one start, the text itself starting at
`offset`. -/
def lineStartsAfter (offset : Nat) : Text → List Nat
  | [] => []
  | c :: cs =>
    if c = '\n' then (offset + 1) :: lineStartsAfter (offset + 1) cs
    else lineStartsAfter (offset + 1) cs

/-- A source that is being read. -/
structure Source where
  path : Option Text
  /-- The text with normal line endings. -/
  text : Text
  /-- Where each line starts. -/
  starts : List Nat
deriving DecidableEq, Repr, Inhabited

namespace Source

/-- The source of a text. -/
def ofText (path : Option Text) (t : Text) : Source :=
  let text := normalizeNewlines t
  ⟨path, text, 0 :: lineStartsAfter 0 text⟩

/-- How many characters stand before a position. -/
def offset (source : Source) (p : Position) : Nat :=
  source.starts.getD (p.line - 1) 0 + p.column - 1

/-- The text from one position up to another. -/
def slice (source : Source) (start stop : Position) : Text :=
  (source.text.take (source.offset stop)).drop (source.offset start)

end Source

end NestedSheet
