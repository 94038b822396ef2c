import NestedSheet.Component.Quoted
import NestedSheet.Component.Number
import NestedSheet.Text.Span

/-!
# Lexemes

A text is read from left to right as a sequence of lexemes: leaves, comments,
the starts of functions, and brackets.  Which lexeme comes next depends on the
text that is left and on nothing else; in particular not on the brackets that are
open.

Main facts: every lexeme takes at least one character (`next_length`), so reading
comes to an end.
-/

namespace NestedSheet

/-- A unit of text before the brackets are matched. -/
inductive Lexeme where
  | leaf (leaf : Leaf)
  | comment (text : Text)
  /-- The name of a function with its opening bracket. -/
  | function (name : Text)
  | opening (bracket : Bracket)
  | closing (bracket : Bracket)
deriving DecidableEq, Repr, Inhabited

namespace Lexeme

open Component

/-! ## Kinds of lexemes -/

/-- A literal. -/
def literal (t : Text) : Lexeme :=
  .leaf (.literal t)

/-- Is the text a name in any mix of upper and lower case? -/
def isNamed (name : String) (t : Text) : Bool :=
  t.map Char.toLower == name.toList

/-- Does the text start with a quote? -/
def startsQuote (t : Text) : Bool :=
  t.head?.any Text.isQuote

/-- The lexeme of a text that starts with an identifier: the identifier, a URL
or the start of a function. -/
def identLike (t : Text) : Lexeme × Text :=
  let name := readName t
  match name.2 with
  | '(' :: rest =>
    if isNamed "url" name.1 && !startsQuote (rest.dropWhile isSpace) then
      (.leaf (readUrl rest).1, (readUrl rest).2)
    else (.function name.1, rest)
  | rest => (.leaf (.ident name.1), rest)

/-- The lexeme of a number with the text after it: a dimension, a percentage or
a plain number. -/
def numeric (digits rest : Text) : Lexeme × Text :=
  if startsIdent rest then (.leaf (.dimension digits (readName rest).1), (readName rest).2)
  else match rest with
    | '%' :: cs => (.leaf (.percentage digits), cs)
    | _ => (.leaf (.number digits), rest)

/-- The lexeme of an at sign with the text after it. -/
def atSign (cs : Text) : Lexeme × Text :=
  if startsIdent cs then (.leaf (.atKeyword (readName cs).1), (readName cs).2)
  else (literal ['@'], cs)

/-- The lexeme of a number sign with the text after it. -/
def numberSign (cs : Text) : Lexeme × Text :=
  if cs.head?.any isNameChar || startsEscape cs then
    (.leaf (.hash (readName cs).1 (startsIdent cs)), (readName cs).2)
  else (literal ['#'], cs)

/-- The text of the comment after its opening mark, and the text after it; a
comment may also end with the text. -/
def readComment : Text → Text × Text
  | [] => ([], [])
  | '*' :: '/' :: cs => ([], cs)
  | c :: cs =>
    let rest := readComment cs
    (c :: rest.1, rest.2)

/-- The lexeme of a string after its opening quote. -/
def quoted (quote : Char) (cs : Text) : Lexeme × Text :=
  let r := readString quote cs
  (.leaf (stringLeaf r.1 r.2.1), r.2.2)

/-- A mark that belongs together with an equals sign after it. -/
def joinsEquals (c : Char) : Bool :=
  c == '~' || c == '|' || c == '^' || c == '$' || c == '*'

/-- The lexeme of a character that is none of the above: comments, and literals
of one or more characters. -/
def mark (c : Char) (cs : Text) : Lexeme × Text :=
  if c = '/' ∧ cs.head? = some '*' then
    (.comment (readComment (cs.drop 1)).1, (readComment (cs.drop 1)).2)
  else if c = '<' ∧ Text.startsWith cs ['!', '-', '-'] then
    (literal ['<', '!', '-', '-'], cs.drop 3)
  else if c = '|' ∧ cs.head? = some '|' then (literal ['|', '|'], cs.drop 1)
  else if joinsEquals c ∧ cs.head? = some '=' then (literal [c, '='], cs.drop 1)
  else (literal [c], cs)

/-- The lexeme of a character that starts neither a name nor a number. -/
def punctuation (c : Char) (cs : Text) : Lexeme × Text :=
  if c = '@' then atSign cs
  else if c = '#' then numberSign cs
  else if Text.isQuote c then quoted c cs
  else match Bracket.ofOpening? c, Bracket.ofClosing? c with
    | some bracket, _ => (.opening bracket, cs)
    | none, some bracket => (.closing bracket, cs)
    | none, none => mark c cs

/-- The first lexeme of a text that starts with `c`, and the text after it. -/
def next (c : Char) (cs : Text) : Lexeme × Text :=
  if isSpace c then (.leaf (.whitespace (c :: cs.takeWhile isSpace)), cs.dropWhile isSpace)
  -- a range and the end of a markup comment both start like an identifier, and so
  -- they are looked for before it
  else match readRange? c cs with
    | some (range, rest) => (.leaf range, rest)
    | none =>
      if c = '-' ∧ Text.startsWith cs ['-', '>'] then (literal ['-', '-', '>'], cs.drop 2)
      else if startsIdent (c :: cs) then identLike (c :: cs)
      else match readNumber? (c :: cs) with
        | some (digits, rest) => numeric digits rest
        | none => punctuation c cs

/-! ## Every lexeme takes some text -/

theorem identLike_length {c : Char} {cs : Text} (h : startsIdent (c :: cs) = true) :
    (identLike (c :: cs)).2.length ≤ cs.length := by
  have hlt := readName_length_lt (isNameChar_or_startsEscape h)
  unfold identLike
  simp only
  split
  · next rest hrest =>
    rw [hrest] at hlt
    simp only [List.length_cons] at hlt
    have := readUrl_length rest
    split <;> simp only <;> omega
  · exact hlt

theorem numeric_length (digits rest : Text) : (numeric digits rest).2.length ≤ rest.length := by
  unfold numeric
  split
  · exact readName_length rest
  · split
    · simp
    · exact Nat.le_refl _

theorem atSign_length (cs : Text) : (atSign cs).2.length ≤ cs.length := by
  unfold atSign
  split
  · exact readName_length cs
  · exact Nat.le_refl _

theorem numberSign_length (cs : Text) : (numberSign cs).2.length ≤ cs.length := by
  unfold numberSign
  split
  · exact readName_length cs
  · exact Nat.le_refl _

theorem readComment_length (t : Text) : (readComment t).2.length ≤ t.length := by
  fun_induction readComment t with
  | case1 => simp
  | case2 cs => simp only [List.length_cons]; omega
  | case3 c cs _ rest ih => simp only [List.length_cons]; simp only [rest]; omega

theorem mark_length (c : Char) (cs : Text) : (mark c cs).2.length ≤ cs.length := by
  unfold mark
  split
  · have := readComment_length (cs.drop 1)
    simp only [List.length_drop] at this ⊢
    omega
  · repeat' split
    all_goals simp

theorem punctuation_length (c : Char) (cs : Text) : (punctuation c cs).2.length ≤ cs.length := by
  unfold punctuation
  split
  · exact atSign_length cs
  split
  · exact numberSign_length cs
  split
  · exact readString_length c cs
  split
  · exact Nat.le_refl _
  · exact Nat.le_refl _
  · exact mark_length c cs

/-- A lexeme takes at least the first character of its text. -/
theorem next_length (c : Char) (cs : Text) : (next c cs).2.length ≤ cs.length := by
  unfold next
  split
  · exact dropWhile_length isSpace cs
  split
  · next h => exact readRange?_length h
  split
  · simp
  split
  · next h => exact identLike_length h
  split
  · next digits rest h =>
    have h1 := readNumber?_length h
    have h2 := numeric_length digits rest
    simp only [List.length_cons] at h1
    omega
  · exact punctuation_length c cs

/-! ## All lexemes -/

/-- The lexemes of a text that starts at a position, each with the position it
starts at. -/
def scan (p : Position) : Text → List (Position × Lexeme)
  | [] => []
  | c :: cs =>
    let step := next c cs
    -- the characters that the lexeme took, by which the position moves on
    let taken := (c :: cs).take (cs.length + 1 - step.2.length)
    (p, step.1) :: scan (p.after taken) step.2
termination_by t => t.length
decreasing_by have := next_length c cs; simp only [List.length_cons]; omega

/-! ## Integers -/

/-- How many digits the integer of a lexeme has, if it has too many of them. -/
def excess? : Lexeme → Option Nat
  | .leaf (.number digits) => excessDigits? digits
  | .leaf (.percentage digits) => excessDigits? digits
  | .leaf (.dimension digits _) => excessDigits? digits
  | _ => none

/-- How many digits the first integer with too many of them has. -/
def firstExcess? (lexemes : List (Position × Lexeme)) : Option Nat :=
  lexemes.findSome? fun x => x.2.excess?

theorem firstExcess?_cons {lexeme : Lexeme} (h : lexeme.excess? = none) (p : Position)
    (lexemes : List (Position × Lexeme)) :
    firstExcess? ((p, lexeme) :: lexemes) = firstExcess? lexemes := by
  rw [firstExcess?, List.findSome?_cons, h]
  rfl

end Lexeme

end NestedSheet
