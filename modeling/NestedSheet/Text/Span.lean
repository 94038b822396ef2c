import NestedSheet.Text.Basic

/-!
# Quoted spans

A quoted span starts at a quote and runs to the next occurrence of the same
quote that no backslash escapes.  A span without such an occurrence is not
complete.  Interpolation and the removal of comments pass over complete spans
only; selectors also keep a last span that is not complete.

Main facts: `body` splits its text in two (`body_append`), and what follows a
complete span is shorter than the text it is read from.
-/

namespace NestedSheet.Text

/-- Is the character one of the two quotes? -/
def isQuote (c : Char) : Bool :=
  c == '"' || c == '\''

/-- Splits a text after its longest start made of characters other than the
quote `q` and the backslash, and of a backslash with the character after it. -/
def body (q : Char) : Text → Text × Text
  | [] => ([], [])
  | '\\' :: c :: cs =>
    let r := body q cs
    ('\\' :: c :: r.1, r.2)
  | c :: cs =>
    if c = q ∨ c = '\\' then ([], c :: cs)
    else
      let r := body q cs
      (c :: r.1, r.2)

/-- The two parts of the split make up the text. -/
theorem body_append (q : Char) (t : Text) : (body q t).1 ++ (body q t).2 = t := by
  fun_induction body q t with
  | case1 => rfl
  | case2 c cs r ih => simp [r, ih]
  | case3 c cs _ _ => rfl
  | case4 c cs _ _ r ih => simp [r, ih]

theorem body_length_le (q : Char) (t : Text) : (body q t).2.length ≤ t.length := by
  have h := congrArg List.length (body_append q t)
  rw [List.length_append] at h
  omega

/-- The complete span that a text starts with, if there is one, and the text
after it. -/
def completeSpan? : Text → Option (Text × Text)
  | [] => none
  | q :: cs =>
    if isQuote q then
      match body q cs with
      | (inside, c :: rest) => if c = q then some (q :: inside ++ [q], rest) else none
      | (_, []) => none
    else none

theorem completeSpan?_append {t span rest : Text} (h : completeSpan? t = some (span, rest)) :
    span ++ rest = t := by
  cases t with
  | nil => simp [completeSpan?] at h
  | cons q cs =>
    rw [completeSpan?] at h
    split at h
    · split at h
      · next inside c rest' hb =>
        split at h
        · next hc =>
          have := body_append q cs
          rw [hb] at this
          simp only [Option.some.injEq, Prod.mk.injEq] at h
          obtain ⟨rfl, rfl⟩ := h
          simp [← this, hc]
        · simp at h
      · simp at h
    · simp at h

theorem completeSpan?_length {c : Char} {cs span rest : Text}
    (h : completeSpan? (c :: cs) = some (span, rest)) : rest.length ≤ cs.length := by
  rw [completeSpan?] at h
  split at h
  · split at h
    · next inside d rest' hb =>
      have := body_length_le c cs
      rw [hb] at this
      split at h
      · simp only [Option.some.injEq, Prod.mk.injEq] at h
        obtain ⟨_, rfl⟩ := h
        simp only [List.length_cons] at this
        omega
      · simp at h
    · simp at h
  · simp at h

end NestedSheet.Text
