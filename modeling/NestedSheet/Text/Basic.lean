/-!
# Text

A text is the list of its characters: scanning is recursion on data, positions
and lengths count characters, and concatenation is list concatenation.  This
module has the operations that every other module shares: cutting at a
separator, trimming at an end, writing integers, indenting.

Main facts: `cut` loses nothing (`intercalate_cut`) and cuts at every separator
(`cut_append_cons`, `sep_not_mem_cut`), and trimming at the end leaves a start of
the text (`dropEndWhile_append`).
-/

namespace NestedSheet

/-- A text is the list of its characters. -/
abbrev Text := List Char

namespace Text

/-! ## Cutting -/

/-- The pieces of a text between the occurrences of `sep`; there is always one
more piece than there are separators. -/
def cut (sep : Char) : Text → List Text
  | [] => [[]]
  | c :: cs =>
    if c = sep then [] :: cut sep cs
    else match cut sep cs with
      | [] => [[c]]
      | piece :: pieces => (c :: piece) :: pieces

theorem cut_ne_nil (sep : Char) (t : Text) : cut sep t ≠ [] := by
  cases t with
  | nil => simp [cut]
  | cons c cs =>
    rw [cut]
    split
    · simp
    · split <;> simp

/-- Putting the separator back between the pieces gives the text. -/
theorem intercalate_cut (sep : Char) (t : Text) : [sep].intercalate (cut sep t) = t := by
  induction t with
  | nil => rfl
  | cons c cs ih =>
    obtain ⟨piece, pieces, h⟩ := List.exists_cons_of_ne_nil (cut_ne_nil sep cs)
    by_cases hc : c = sep
    · rw [cut, if_pos hc, h, List.intercalate_cons_cons, ← h, ih]
      simp [hc]
    · rw [cut, if_neg hc, h]
      rw [h] at ih
      cases pieces with
      | nil => simpa [List.intercalate] using ih
      | cons next more =>
        rw [List.intercalate_cons_cons] at ih ⊢
        simp [← ih]

/-- A separator divides the pieces before it from those behind it. -/
theorem cut_append_cons (sep : Char) (t rest : Text) :
    cut sep (t ++ sep :: rest) = cut sep t ++ cut sep rest := by
  induction t with
  | nil => simp [cut]
  | cons c cs ih =>
    obtain ⟨piece, pieces, h⟩ := List.exists_cons_of_ne_nil (cut_ne_nil sep cs)
    by_cases hc : c = sep
    · rw [List.cons_append, cut, if_pos hc, ih, cut, if_pos hc, List.cons_append]
    · rw [List.cons_append, cut, if_neg hc, ih, cut, if_neg hc, h]
      rfl

theorem cut_single {sep : Char} {t : Text} (ht : sep ∉ t) : cut sep t = [t] := by
  induction t with
  | nil => rfl
  | cons c cs ih =>
    rw [List.mem_cons, not_or] at ht
    rw [cut, if_neg (Ne.symm ht.1), ih ht.2]

/-- The text up to the first separator is the first piece. -/
theorem cut_append {sep : Char} {t : Text} (ht : sep ∉ t) (rest : Text) :
    cut sep (t ++ sep :: rest) = t :: cut sep rest := by
  rw [cut_append_cons, cut_single ht, List.singleton_append]

theorem sep_not_mem_cut {sep : Char} {t piece : Text} (h : piece ∈ cut sep t) : sep ∉ piece := by
  induction t generalizing piece with
  | nil =>
    rw [cut, List.mem_singleton] at h
    rw [h]
    exact List.not_mem_nil
  | cons c cs ih =>
    obtain ⟨line, lines, hcut⟩ := List.exists_cons_of_ne_nil (cut_ne_nil sep cs)
    rw [hcut] at ih
    rw [cut, hcut] at h
    split at h
    · rcases List.mem_cons.1 h with rfl | h
      · exact List.not_mem_nil
      · exact ih h
    · next hc =>
      rcases List.mem_cons.1 h with rfl | h
      · rw [List.mem_cons, not_or]
        exact ⟨Ne.symm hc, ih List.mem_cons_self⟩
      · exact ih (List.mem_cons_of_mem _ h)

/-- Does the text end with this character? -/
def endsWith (t : Text) (c : Char) : Bool :=
  t.getLast? == some c

/-! ## Trimming -/

/-- The text without its longest end of characters that satisfy `p`. -/
def dropEndWhile (p : Char → Bool) (t : Text) : Text :=
  (t.reverse.dropWhile p).reverse

/-- What is trimmed at the end is a run of characters that satisfy `p`. -/
theorem dropEndWhile_append (p : Char → Bool) (t : Text) :
    dropEndWhile p t ++ (t.reverse.takeWhile p).reverse = t := by
  rw [dropEndWhile, ← List.reverse_append, List.takeWhile_append_dropWhile, List.reverse_reverse]

/-- Does the text start with `start`? -/
def startsWith (t start : Text) : Bool :=
  start.isPrefixOf t

/-! ## Order -/

/-- Does a text come before another one, or is it the same, in the order of their
code points? -/
def notAfter : Text → Text → Bool
  | [], _ => true
  | _ :: _, [] => false
  | a :: as, b :: bs => a.toNat < b.toNat || (a == b && notAfter as bs)

/-! ## Numbers and indentation -/

/-- An integer in decimal, with a minus sign when it is negative.  This idealises very long
integers: with more than 4300 digits they are refused where they are written, just as where
they are read (`Component.maxDigits`), and here they are written all the same. -/
def ofInt (n : Int) : Text :=
  if n < 0 then '-' :: Nat.toDigits 10 n.natAbs else Nat.toDigits 10 n.natAbs

/-- A natural number in decimal. -/
def ofNat (n : Nat) : Text :=
  Nat.toDigits 10 n

/-- The indentation of depth `depth`: two spaces for each level after the
first, and nothing at a depth below that. -/
def indent (depth : Int) : Text :=
  List.replicate (2 * (depth - 1).toNat) ' '

end Text

end NestedSheet
