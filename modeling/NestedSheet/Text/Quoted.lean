import NestedSheet.Text.Basic

/-!
# Quoted texts

How a text is shown inside a message: between quotes, with the backslash, the
quote itself and the line controls written as escapes.  Double quotes are used
only when that saves an escape: the text has a single quote and no double one.
Lists and rows of texts are shown with their brackets and commas.

Main fact: `unescape` undoes `escape`, so a shown text can be read back.
-/

namespace NestedSheet.Text

/-- The quote that a text is shown between. -/
def quoteFor (t : Text) : Char :=
  if t.contains '\'' && !t.contains '"' then '"' else '\''

/-- One character of a text shown between the quotes `q`. -/
def escapeChar (q c : Char) : Text :=
  if c = '\\' then ['\\', '\\']
  else if c = q then ['\\', q]
  else if c = '\n' then ['\\', 'n']
  else if c = '\r' then ['\\', 'r']
  else if c = '\t' then ['\\', 't']
  else [c]

/-- The inside of a text shown between the quotes `q`. -/
def escape (q : Char) (t : Text) : Text :=
  t.flatMap (escapeChar q)

/-- Reads the inside of a shown text. -/
def unescape : Text → Text
  | [] => []
  | '\\' :: c :: cs =>
    (if c = 'n' then '\n' else if c = 'r' then '\r' else if c = 't' then '\t' else c) :: unescape cs
  | c :: cs => c :: unescape cs

/-- A shown text reads back as itself, whichever quote stands around it. -/
theorem unescape_escape {q : Char} (hq : q = '\'' ∨ q = '"') (t : Text) :
    unescape (escape q t) = t := by
  induction t with
  | nil => rfl
  | cons c cs ih =>
    have step : escape q (c :: cs) = escapeChar q c ++ escape q cs := rfl
    rw [step, escapeChar]
    by_cases hb : c = '\\'
    · subst hb; simp [unescape, ih]
    by_cases hc : c = q
    · subst hc
      rcases hq with rfl | rfl <;> simp [unescape, ih]
    by_cases hn : c = '\n'
    · subst hn; rcases hq with rfl | rfl <;> simp [unescape, ih]
    by_cases hr : c = '\r'
    · subst hr; rcases hq with rfl | rfl <;> simp [unescape, ih]
    by_cases ht : c = '\t'
    · subst ht; rcases hq with rfl | rfl <;> simp [unescape, ih]
    simp [hb, hc, hn, hr, ht, unescape, ih]

/-- A text shown between its quotes. -/
def quoted (t : Text) : Text :=
  quoteFor t :: escape (quoteFor t) t ++ [quoteFor t]

/-- A list of texts, shown in square brackets. -/
def quotedList (ts : List Text) : Text :=
  '[' :: (", ".toList).intercalate (ts.map quoted) ++ [']']

/-- Items shown in round brackets; a single item is followed by a comma. -/
def row (items : List Text) : Text :=
  match items with
  | [item] => '(' :: item ++ [',', ')']
  | _ => '(' :: (", ".toList).intercalate items ++ [')']

/-- Rows of texts, each shown in round brackets. -/
def quotedRows (rows : List (List Text)) : Text :=
  row (rows.map fun texts => row (texts.map quoted))

end NestedSheet.Text
