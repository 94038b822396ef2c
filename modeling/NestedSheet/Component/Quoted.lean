import NestedSheet.Component.Name

/-!
# Strings and URLs

A string runs to the next quote of its kind; a newline breaks it, unless a
backslash stands before, which then drops both.  A URL without quotes runs to the
closing bracket and may hold whitespace at its ends only.  The end of the text
ends both, which is a fault but keeps what was read.

Main facts: `readString_length` and `readUrl_length`, what remains after a string
or a URL is no longer than what it was read from.
-/

namespace NestedSheet.Component

/-- How a string or a URL ends. -/
inductive Ending where
  | closed
  | endOfText
  /-- At a character that it may not hold. -/
  | broken
deriving DecidableEq, Repr, Inhabited

/-! ## Strings -/

/-- The value of the string after an opening quote, how it ends, and the text
after it. -/
def readString (quote : Char) : Text → Text × Ending × Text
  | [] => ([], .endOfText, [])
  | c :: cs =>
    if c = quote then ([], .closed, cs)
    else if c = '\n' then ([], .broken, c :: cs)
    else if c = '\\' then
      match cs with
      | [] => ([], .endOfText, [])
      | d :: ds =>
        if d = '\n' then readString quote ds
        else
          let rest := readString quote (readEscape (d :: ds)).2
          ((readEscape (d :: ds)).1 :: rest.1, rest.2)
    else
      let rest := readString quote cs
      (c :: rest.1, rest.2)
termination_by t => t.length
decreasing_by
  · simp only [List.length_cons]; omega
  · have := readEscape_length (d :: ds); simp only [List.length_cons] at this ⊢; omega
  · simp

theorem readString_length (quote : Char) (t : Text) :
    (readString quote t).2.2.length ≤ t.length := by
  fun_induction readString quote t with
  | case1 => simp
  | case2 cs => simp
  | case3 cs _ => simp
  | case4 _ _ => simp
  | case5 ds _ _ ih => simp only [List.length_cons]; omega
  | case6 d ds _ rest _ _ ih =>
    have := readEscape_length (d :: ds)
    simp only [List.length_cons] at this ⊢
    simp only [rest]
    omega
  | case7 c cs _ _ _ rest ih => simp only [List.length_cons]; simp only [rest]; omega

/-- The leaf of a string with a value and an ending. -/
def stringLeaf (value : Text) : Ending → Leaf
  | .closed => .string value true
  | .endOfText => .string value false
  | .broken => .badString

/-! ## URLs -/

/-- A character that a URL without quotes may not hold: quotes, an opening
bracket and control characters. -/
def breaksUrl (c : Char) : Bool :=
  c == '"' || c == '\'' || c == '(' || c.toNat ≤ 0x08 || c.toNat == 0x0B
    || (0x0E ≤ c.toNat && c.toNat ≤ 0x1F) || c.toNat == 0x7F

/-- The value of the URL that a text starts with, how it ends, and the rest. -/
def readUrlValue : Text → Text × Ending × Text
  | [] => ([], .endOfText, [])
  | c :: cs =>
    if c = ')' then ([], .closed, cs)
    else if isSpace c then
      match cs.dropWhile isSpace with
      | [] => ([], .endOfText, [])
      | d :: ds => if d = ')' then ([], .closed, ds) else ([], .broken, d :: ds)
    else if startsEscape (c :: cs) then
      let rest := readUrlValue (readEscape cs).2
      ((readEscape cs).1 :: rest.1, rest.2)
    else if breaksUrl c then ([], .broken, cs)
    else
      let rest := readUrlValue cs
      (c :: rest.1, rest.2)
termination_by t => t.length
decreasing_by
  · have := readEscape_length cs; simp only [List.length_cons]; omega
  · simp

/-- The text after the closing bracket of a broken URL. -/
def skipBrokenUrl : Text → Text
  | [] => []
  | '\\' :: ')' :: cs => skipBrokenUrl cs
  | ')' :: cs => cs
  | _ :: cs => skipBrokenUrl cs

/-- The leaf of the URL after `url(`, and the text after it. -/
def readUrl (t : Text) : Leaf × Text :=
  match readUrlValue (t.dropWhile isSpace) with
  | (value, .closed, rest) => (.url value true, rest)
  | (value, .endOfText, rest) => (.url value false, rest)
  | (_, .broken, rest) => (.badUrl, skipBrokenUrl rest)

theorem dropWhile_length (p : Char → Bool) (t : Text) : (t.dropWhile p).length ≤ t.length :=
  (List.dropWhile_sublist p).length_le

theorem readUrlValue_length (t : Text) : (readUrlValue t).2.2.length ≤ t.length := by
  fun_induction readUrlValue t with
  | case1 => simp
  | case2 cs => simp
  | case3 c cs _ _ _ => simp
  | case4 c cs _ _ ds h =>
    have := dropWhile_length isSpace cs
    rw [h] at this
    simp only [List.length_cons] at this ⊢
    omega
  | case5 c cs _ _ d ds h _ =>
    have := dropWhile_length isSpace cs
    rw [h] at this
    simp only [List.length_cons] at this ⊢
    omega
  | case6 c cs _ _ _ rest ih =>
    have := readEscape_length cs
    simp only [List.length_cons]
    simp only [rest]
    omega
  | case7 c cs => simp
  | case8 c cs _ _ _ _ rest ih => simp only [List.length_cons]; simp only [rest]; omega

theorem skipBrokenUrl_length (t : Text) : (skipBrokenUrl t).length ≤ t.length := by
  fun_induction skipBrokenUrl t with
  | case1 => simp
  | case2 cs ih => simp only [List.length_cons]; omega
  | case3 cs => simp
  | case4 c cs _ _ ih => simp only [List.length_cons]; omega

theorem readUrl_length (t : Text) : (readUrl t).2.length ≤ t.length := by
  have h1 := dropWhile_length isSpace t
  have h2 := readUrlValue_length (t.dropWhile isSpace)
  unfold readUrl
  split
  · next h => rw [h] at h2; simp only at h2 ⊢; omega
  · next h => rw [h] at h2; simp only at h2 ⊢; omega
  · next rest h =>
    rw [h] at h2
    have h3 := skipBrokenUrl_length rest
    simp only at h2 ⊢
    omega

end NestedSheet.Component
