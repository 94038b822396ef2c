import NestedSheet.Selector.Basic
import NestedSheet.Text.Span

/-!
# Reading selector lines

A selector line is read from left to right as a sequence of items: tokens and
the commas that divide alternatives.  Commas and parent markers inside quotes
are part of the quoted span; a span that is not terminated runs to the end of
the line.  Blanks after a comma are skipped, and a comma with nothing after it
divides nothing.
-/

namespace NestedSheet.Selector

/-- What a selector line is made of. -/
inductive Item where
  /-- A token; plain text comes one character at a time. -/
  | token (token : Token)
  /-- A comma that divides two alternatives. -/
  | comma
deriving DecidableEq, Repr, Inhabited

/-- The quoted span after the opening quote `q`, and the rest of the line.  The
character after the content is the closing quote, or the backslash that the
line ends with. -/
def quotedSpan (q : Char) (line : Text) : Token × Text :=
  let parts := Text.body q line
  (.quoted [q] parts.1 (parts.2.take 1), parts.2.drop 1)

theorem quotedSpan_length (q : Char) (line : Text) :
    (quotedSpan q line).2.length ≤ line.length := by
  have := Text.body_length_le q line
  simp only [quotedSpan, List.length_drop]
  omega

theorem stripStart_length (line : Text) : (Text.stripStart line).length ≤ line.length :=
  (List.dropWhile_sublist _).length_le

/-- The items of a selector line. -/
def items : Text → List Item
  | [] => []
  | c :: cs =>
    if c = parentMark then .token .parent :: items cs
    -- a comma that only blanks follow divides nothing
    else if c = ',' then
      if (Text.stripStart cs).isEmpty then [] else .comma :: items (Text.stripStart cs)
    else if Text.isQuote c then .token (quotedSpan c cs).1 :: items (quotedSpan c cs).2
    else .token (.literal [c]) :: items cs
termination_by line => line.length
decreasing_by
  · simp
  · have := stripStart_length cs; simp only [List.length_cons]; omega
  · have := quotedSpan_length c cs; simp only [List.length_cons]; omega
  · simp

/-- The alternatives between the commas of a sequence of items; there is always
at least one. -/
def divide : List Item → List Alternative
  | [] => [[]]
  | .comma :: items => [] :: divide items
  | .token token :: items =>
    match divide items with
    | [] => [[token]]
    | alternative :: alternatives => (token :: alternative) :: alternatives

/-- The alternatives of a selector line, each in normal form. -/
def parse (line : Text) : Line :=
  (divide (items line)).map Alternative.merge

theorem divide_ne_nil (items : List Item) : divide items ≠ [] := by
  cases items with
  | nil => simp [divide]
  | cons item items =>
    cases item with
    | comma => simp [divide]
    | token t => rw [divide]; split <;> simp

/-- A selector line has at least one alternative. -/
theorem parse_ne_nil (line : Text) : parse line ≠ [] := by
  simp [parse, divide_ne_nil]

end NestedSheet.Selector
