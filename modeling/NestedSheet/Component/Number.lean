import NestedSheet.Component.Name

/-!
# Numbers and ranges

A number is an optional sign, digits with an optional point among or before
them, and an optional exponent; the point must have a digit after it.  A unicode
range is `U+` with up to six hexadecimal digits, the last of which may be question
marks that stand for any digit, or with two such numbers and a hyphen.

An integer has a value besides its text, and so it may not have more digits than can be
turned into one (`maxDigits`).

Main facts: a number takes at least one character (`readNumber?_length`).
-/

namespace NestedSheet.Component

/-! ## Numbers -/

/-- An optional sign, and the text after it. -/
def readSign : Text → Text × Text
  | '+' :: cs => (['+'], cs)
  | '-' :: cs => (['-'], cs)
  | t => ([], t)

/-- The digits of a number, with their point if they have one, and the text
after them. -/
def readMantissa? (t : Text) : Option (Text × Text) :=
  let whole := t.takeWhile Char.isDigit
  let fraction := ((t.dropWhile Char.isDigit).drop 1).takeWhile Char.isDigit
  if (t.dropWhile Char.isDigit).head? = some '.' ∧ fraction ≠ [] then
    some (whole ++ '.' :: fraction, ((t.dropWhile Char.isDigit).drop 1).dropWhile Char.isDigit)
  else if whole ≠ [] then some (whole, t.dropWhile Char.isDigit)
  else none

/-- The exponent that a text starts with, if there is one, and the text after
it. -/
def readExponent (t : Text) : Text × Text :=
  match t with
  | [] => ([], [])
  | e :: cs =>
    let sign := readSign cs
    let digits := sign.2.takeWhile Char.isDigit
    if (e = 'e' ∨ e = 'E') ∧ digits ≠ [] then
      (e :: sign.1 ++ digits, sign.2.dropWhile Char.isDigit)
    else ([], t)

/-- The number that a text starts with, as it is written, and the text after it. -/
def readNumber? (t : Text) : Option (Text × Text) :=
  let sign := readSign t
  match readMantissa? sign.2 with
  | none => none
  | some (digits, rest) =>
    let exponent := readExponent rest
    some (sign.1 ++ digits ++ exponent.1, exponent.2)

theorem readSign_append (t : Text) : (readSign t).1 ++ (readSign t).2 = t := by
  unfold readSign
  split <;> rfl

theorem readSign_stop {c : Char} (hc : c ≠ '+' ∧ c ≠ '-') (cs : Text) :
    readSign (c :: cs) = ([], c :: cs) := by
  unfold readSign
  split <;> simp_all

theorem readMantissa?_append {t digits rest : Text} (h : readMantissa? t = some (digits, rest)) :
    digits ++ rest = t ∧ digits ≠ [] := by
  unfold readMantissa? at h
  simp only at h
  split at h
  · next hp =>
    obtain ⟨hpoint, _⟩ := hp
    simp only [Option.some.injEq, Prod.mk.injEq] at h
    obtain ⟨rfl, rfl⟩ := h
    have hd := List.takeWhile_append_dropWhile (p := Char.isDigit) (l := t)
    cases hr : t.dropWhile Char.isDigit with
    | nil => simp [hr] at hpoint
    | cons c cs =>
      simp only [hr, List.head?_cons, Option.some.injEq] at hpoint
      subst hpoint
      simp only [List.drop_succ_cons, List.drop_zero, List.append_assoc, List.cons_append,
        List.takeWhile_append_dropWhile]
      rw [hr] at hd
      exact ⟨hd, by simp⟩
  · split at h
    · next hw =>
      simp only [Option.some.injEq, Prod.mk.injEq] at h
      obtain ⟨rfl, rfl⟩ := h
      exact ⟨List.takeWhile_append_dropWhile, hw⟩
    · simp at h

theorem readExponent_append (t : Text) : (readExponent t).1 ++ (readExponent t).2 = t := by
  unfold readExponent
  split
  · rfl
  · next e cs =>
    simp only
    split
    · have := readSign_append cs
      simp only [List.cons_append, List.append_assoc, List.takeWhile_append_dropWhile, this]
    · rfl

/-- A number and the text after it make up the text it was read from. -/
theorem readNumber?_append {t digits rest : Text} (h : readNumber? t = some (digits, rest)) :
    digits ++ rest = t ∧ digits ≠ [] := by
  unfold readNumber? at h
  simp only at h
  split at h
  · simp at h
  · next mantissa after hm =>
    simp only [Option.some.injEq, Prod.mk.injEq] at h
    obtain ⟨rfl, rfl⟩ := h
    obtain ⟨ha, hne⟩ := readMantissa?_append hm
    have he := readExponent_append after
    have hs := readSign_append t
    rw [List.append_assoc, List.append_assoc, he, ha, hs]
    exact ⟨rfl, by simp [hne]⟩

theorem readNumber?_length {t digits rest : Text} (h : readNumber? t = some (digits, rest)) :
    rest.length < t.length := by
  obtain ⟨ha, hne⟩ := readNumber?_append h
  have := List.length_pos_iff.2 hne
  rw [← ha, List.length_append]
  omega

/-! ## Integers -/

/-- Is a number an integer, without a point and without an exponent? -/
def isInteger (digits : Text) : Bool :=
  digits.all fun c => c != '.' && c != 'e' && c != 'E'

/-- The largest number of digits that are turned into the value of an integer, unless another
limit is asked for. -/
def maxDigits : Nat := 4300

/-- How many digits a number has, if it is an integer and these are too many.  Zeros at the
start count as well, the sign does not. -/
def excessDigits? (digits : Text) : Option Nat :=
  let count := digits.countP Char.isDigit
  if isInteger digits && maxDigits < count then some count else none

/-! ## Unicode ranges -/

/-- Up to six hexadecimal digits at the start of a text. -/
def hexRun (t : Text) : Text :=
  (t.take 6).takeWhile isHex

/-- The range after `U+`, and the text after it. -/
def readRange (t : Text) : Leaf × Text :=
  let digits := hexRun t
  let after := t.drop digits.length
  let marks := (after.take (6 - digits.length)).takeWhile (· == '?')
  if marks ≠ [] then
    (.unicodeRange (hexValue (digits ++ marks.map fun _ => '0'))
      (hexValue (digits ++ marks.map fun _ => 'F')), after.drop marks.length)
  else if after.head? = some '-' ∧ hexRun (after.drop 1) ≠ [] then
    let last := hexRun (after.drop 1)
    (.unicodeRange (hexValue digits) (hexValue last), (after.drop 1).drop last.length)
  else (.unicodeRange (hexValue digits) (hexValue digits), after)

/-- The unicode range that a text with this first character starts with, if it
starts with one, and the text after it. -/
def readRange? (c : Char) (cs : Text) : Option (Leaf × Text) :=
  match cs with
  | '+' :: d :: ds =>
    if (c = 'u' ∨ c = 'U') ∧ (isHex d || d == '?') then some (readRange (d :: ds)) else none
  | _ => none

theorem readRange_length (t : Text) : (readRange t).2.length ≤ t.length := by
  unfold readRange
  simp only
  split
  · simp only [List.length_drop]; omega
  · split <;> simp only [List.length_drop] <;> omega

theorem readRange?_length {c : Char} {cs : Text} {leaf : Leaf} {rest : Text}
    (h : readRange? c cs = some (leaf, rest)) : rest.length ≤ cs.length := by
  unfold readRange? at h
  split at h
  · next d ds =>
    split at h
    · have := readRange_length (d :: ds)
      simp only [Option.some.injEq] at h
      rw [h] at this
      simp only [List.length_cons] at this ⊢
      omega
    · simp at h
  · simp at h

end NestedSheet.Component
