import NestedSheet.Component.Basic

/-!
# Names and escapes

A name is a run of letters, digits, hyphens, underscores, characters outside
ASCII, and escapes.  An escape is a backslash with one to six hexadecimal digits,
after which one space may follow, or with any other character but a newline.
An identifier is a name that starts in one of a few ways.

Main facts: reading an escape or a name never gives back more than it was given
(`readEscape_length`, `readName_length`), and where an identifier starts, a name
takes at least one character (`readName_length_lt`).
-/

namespace NestedSheet.Component

/-! ## Classes of characters -/

/-- Whitespace between components. -/
def isSpace (c : Char) : Bool :=
  c == ' ' || c == '\n' || c == '\t'

/-- A hexadecimal digit. -/
def isHex (c : Char) : Bool :=
  c.isDigit || ('a' ≤ c && c ≤ 'f') || ('A' ≤ c && c ≤ 'F')

/-- A character that a name can start with. -/
def isNameStart (c : Char) : Bool :=
  c.isAlpha || c == '_' || 0x7F < c.toNat

/-- A character that can stand in a name. -/
def isNameChar (c : Char) : Bool :=
  isNameStart c || c.isDigit || c == '-'

/-- The value of a hexadecimal digit. -/
def hexDigit (c : Char) : Nat :=
  if c.isDigit then c.toNat - '0'.toNat
  else if 'a' ≤ c then c.toNat - 'a'.toNat + 10
  else c.toNat - 'A'.toNat + 10

/-- The value of hexadecimal digits. -/
def hexValue (digits : Text) : Nat :=
  digits.foldl (fun n c => 16 * n + hexDigit c) 0

/-! ## Escapes -/

/-- The character that stands for one that does not exist. -/
def replacement : Char := Char.ofNat 0xFFFD

/-- The character of a code point, if there is one other than NUL.  This idealises
surrogates: where texts are made of code points, an escape such as `\d800` stands for the
lone surrogate; texts are made of characters here, and it is replaced as well. -/
def charOfCode (n : Nat) : Char :=
  if n = 0 ∨ ¬ n.isValidChar then replacement else Char.ofNat n

/-- Does the text start with an escape? -/
def startsEscape : Text → Bool
  | '\\' :: '\n' :: _ => false
  | '\\' :: _ => true
  | _ => false

/-- The text without the one space that may end a hexadecimal escape. -/
def skipSpace : Text → Text
  | [] => []
  | c :: cs => if isSpace c then cs else c :: cs

/-- The character that an escape stands for, and the text after it; the text
given is the one after the backslash. -/
def readEscape (t : Text) : Char × Text :=
  let digits := (t.take 6).takeWhile isHex
  if digits.isEmpty then
    match t with
    | [] => (replacement, [])
    | c :: cs => (c, cs)
  else (charOfCode (hexValue digits), skipSpace (t.drop digits.length))

theorem skipSpace_length (t : Text) : (skipSpace t).length ≤ t.length := by
  cases t with
  | nil => simp [skipSpace]
  | cons c cs => rw [skipSpace]; split <;> simp

theorem readEscape_length (t : Text) : (readEscape t).2.length ≤ t.length := by
  unfold readEscape
  simp only
  split
  · cases t <;> simp
  · have := skipSpace_length (t.drop ((t.take 6).takeWhile isHex).length)
    simp only [List.length_drop] at this ⊢
    omega

/-! ## Names -/

/-- The name that a text starts with, with its escapes undone, and the rest. -/
def readName : Text → Text × Text
  | [] => ([], [])
  | c :: cs =>
    if isNameChar c then
      let rest := readName cs
      (c :: rest.1, rest.2)
    else if startsEscape (c :: cs) then
      let rest := readName (readEscape cs).2
      ((readEscape cs).1 :: rest.1, rest.2)
    else ([], c :: cs)
termination_by t => t.length
decreasing_by
  · simp
  · have := readEscape_length cs; simp only [List.length_cons]; omega

theorem readName_length (t : Text) : (readName t).2.length ≤ t.length := by
  fun_induction readName t with
  | case1 => simp
  | case2 c cs h rest ih => simp only [List.length_cons]; simp only [rest]; omega
  | case3 c cs h h' rest ih =>
    have := readEscape_length cs
    simp only [List.length_cons]
    simp only [rest]
    omega
  | case4 c cs h h' => simp

/-- Does the text start with an identifier? -/
def startsIdent : Text → Bool
  | [] => false
  | c :: cs =>
    isNameStart c || startsEscape (c :: cs)
      || (c == '-' && (cs.head?.any (fun d => isNameStart d || d == '-') || startsEscape cs))

theorem readName_length_lt {c : Char} {cs : Text}
    (h : isNameChar c = true ∨ startsEscape (c :: cs) = true) :
    (readName (c :: cs)).2.length ≤ cs.length := by
  rw [readName]
  split
  · exact readName_length cs
  · next hc =>
    have he : startsEscape (c :: cs) = true := by
      rcases h with h | h
      · exact absurd h hc
      · exact h
    rw [if_pos he]
    have := readEscape_length cs
    have := readName_length (readEscape cs).2
    simp only
    omega

theorem isNameChar_or_startsEscape {c : Char} {cs : Text} (h : startsIdent (c :: cs) = true) :
    isNameChar c = true ∨ startsEscape (c :: cs) = true := by
  simp only [startsIdent, Bool.or_eq_true, Bool.and_eq_true, beq_iff_eq] at h
  rcases h with (h | h) | ⟨h, _⟩
  · left; simp [isNameChar, h]
  · exact Or.inr h
  · left; simp [isNameChar, h]

end NestedSheet.Component
