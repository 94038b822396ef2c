import NestedSheet.Selector.Basic

/-!
# Resolving parent references

The selectors of a nested rule are combined with those of the rule around it.
Every line of the enclosing rule is combined with every line of the nested one,
and within two such lines every selector with every alternative, the enclosing
rule first.  An alternative that has parent markers gets the enclosing selector
in their place; any other one becomes a descendant of it.

A rule that has no enclosing rule may not refer to it.
-/

namespace NestedSheet.Selector

/-- The selector of an alternative inside a rule with the selector `outer`. -/
def Alternative.inside (outer : Text) (tokens : Alternative) : Text :=
  if tokens.hasParent then
    tokens.flatMap fun token => if token = .parent then outer else token.expr
  -- without a marker the alternative is a descendant
  else outer ++ ' ' :: tokens.expr

/-- The selectors of a line inside a line of the enclosing rule. -/
def Line.inside (outer : List Text) (line : Line) : List Text :=
  outer.flatMap fun selector => line.map (Alternative.inside selector)

/-- Does some alternative of the lines refer to an enclosing rule? -/
def refersToParent (lines : List Line) : Bool :=
  lines.any fun line => line.any Alternative.hasParent

/-- The selectors of a rule inside the enclosing rule, if it has one.  There is
no result when the rule refers to an enclosing rule that it does not have. -/
def resolve (lines : List Line) : Option Resolved → Option Resolved
  | none =>
    if refersToParent lines then none else some (lines.map fun line => line.map Alternative.expr)
  | some outer => some (outer.flatMap fun outerLine => lines.map (Line.inside outerLine))

/-- Resolution fails only at base level, and only on a parent reference. -/
theorem resolve_eq_none_iff (lines : List Line) (outer : Option Resolved) :
    resolve lines outer = none ↔ outer = none ∧ refersToParent lines = true := by
  cases outer with
  | none => simp [resolve]
  | some outer => simp [resolve]

end NestedSheet.Selector
