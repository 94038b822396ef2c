import NestedSheet.Text.Blank

/-!
# Selector tokens

A selector is a comma-separated list of alternatives, and an alternative is a
sequence of tokens: plain text, the marker `&` of the enclosing rule, and
quoted spans, which are kept as they stand.

The normal form of an alternative has no empty plain text and no two plain texts
next to each other.  Main fact: `merge`, which gives it, keeps the text of the
alternative (`expr_merge`).
-/

namespace NestedSheet.Selector

/-- A token of a selector. -/
inductive Token where
  /-- A run of plain selector text. -/
  | literal (text : Text)
  /-- The marker that stands for the selector of the enclosing rule. -/
  | parent
  /-- A quoted span.  The closing part is empty, or a lone backslash, when the
  span is not terminated. -/
  | quoted (opening content closing : Text)
deriving DecidableEq, Repr, Inhabited

/-- The character of the parent marker. -/
def parentMark : Char := '&'

/-- The text of a token. -/
def Token.expr : Token → Text
  | .literal text => text
  | .parent => [parentMark]
  | .quoted opening content closing => opening ++ content ++ closing

/-- One of the selectors of a comma-separated list. -/
abbrev Alternative := List Token

/-- The alternatives of a selector line. -/
abbrev Line := List Alternative

/-- The selectors of a rule once no marker is left: lines of selectors. -/
abbrev Resolved := List (List Text)

namespace Alternative

/-- The text of an alternative. -/
def expr (tokens : Alternative) : Text :=
  tokens.flatMap Token.expr

/-- Does the alternative refer to the enclosing rule? -/
def hasParent (tokens : Alternative) : Bool :=
  tokens.contains .parent

/-! ## Normal form -/

/-- Puts plain text before the tokens of an alternative in normal form. -/
def consLiteral (text : Text) (tokens : Alternative) : Alternative :=
  if text.isEmpty then tokens
  else match tokens with
    | .literal next :: rest => .literal (text ++ next) :: rest
    | _ => .literal text :: tokens

/-- The normal form of an alternative: adjacent plain texts are one, and none
is empty. -/
def merge : Alternative → Alternative
  | [] => []
  | .literal text :: tokens => consLiteral text (merge tokens)
  | token :: tokens => token :: merge tokens

@[simp] theorem expr_nil : expr [] = [] := rfl

@[simp] theorem expr_cons (token : Token) (tokens : Alternative) :
    expr (token :: tokens) = token.expr ++ expr tokens := rfl

theorem expr_consLiteral (text : Text) (tokens : Alternative) :
    expr (consLiteral text tokens) = text ++ expr tokens := by
  unfold consLiteral
  split
  · next h => simp [List.isEmpty_iff.1 h]
  · split <;> simp [Token.expr]

/-- Merging keeps the text of an alternative. -/
theorem expr_merge (tokens : Alternative) : expr (merge tokens) = expr tokens := by
  fun_induction merge tokens with
  | case1 => rfl
  | case2 text tokens ih => simp [expr_consLiteral, ih, Token.expr]
  | case3 token tokens _ ih => simp [ih]

end Alternative

/-! ## Continued lines -/

/-- A selector line that ends with a comma is continued on the next line. -/
def isContinued (line : Text) : Bool :=
  (Text.stripEnd line).endsWith ','

end NestedSheet.Selector
