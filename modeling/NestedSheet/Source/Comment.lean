import NestedSheet.Text.Span

/-!
# Comments

The comments of a text are removed from left to right.  What stands in a complete
quoted span is no comment, and a comment that is not closed stays.
-/

namespace NestedSheet

/-- The text after the end of a comment, if there is one. -/
def afterCommentEnd? : Text → Option Text
  | [] => none
  | '*' :: '/' :: cs => some cs
  | _ :: cs => afterCommentEnd? cs

/-- The text after the comment that a text starts with, if it starts with a
complete one. -/
def afterComment? : Text → Option Text
  | '/' :: '*' :: cs => afterCommentEnd? cs
  | _ => none

theorem afterCommentEnd?_length {t rest : Text} (h : afterCommentEnd? t = some rest) :
    rest.length ≤ t.length := by
  fun_induction afterCommentEnd? t with
  | case1 => simp at h
  | case2 cs =>
    simp only [Option.some.injEq] at h
    simp only [List.length_cons, ← h]
    omega
  | case3 c cs _ ih =>
    have := ih h
    simp only [List.length_cons]
    omega

theorem afterComment?_length {c : Char} {cs rest : Text} (h : afterComment? (c :: cs) = some rest) :
    rest.length ≤ cs.length := by
  unfold afterComment? at h
  split at h
  · next ds heq =>
    have := afterCommentEnd?_length h
    simp only [List.cons.injEq] at heq
    rw [heq.2]
    simp only [List.length_cons]
    omega
  · simp at h

/-- What remains of the first unit of a text that starts with `c`, and the text
after it: a complete quoted span remains, a complete comment does not, and any
other character does. -/
def commentStep (c : Char) (cs : Text) : Text × Text :=
  -- spans are looked for first, as a comment mark may stand inside one
  match Text.completeSpan? (c :: cs) with
  | some (span, rest) => (span, rest)
  | none =>
    match afterComment? (c :: cs) with
    | some rest => ([], rest)
    | none => ([c], cs)

theorem commentStep_length (c : Char) (cs : Text) : (commentStep c cs).2.length ≤ cs.length := by
  unfold commentStep
  split
  · next h => exact Text.completeSpan?_length h
  · split
    · next h => exact afterComment?_length h
    · exact Nat.le_refl _

/-- The text without its comments. -/
def removeComments : Text → Text
  | [] => []
  | c :: cs => (commentStep c cs).1 ++ removeComments (commentStep c cs).2
termination_by t => t.length
decreasing_by have := commentStep_length c cs; simp only [List.length_cons]; omega

end NestedSheet
