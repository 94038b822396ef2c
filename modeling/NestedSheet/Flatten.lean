import NestedSheet.Node.Unsupported
import NestedSheet.Options

/-!
# Flattening

CSS has no nested rules: the rules inside a rule become its next siblings.  The
declarations and directives of a rule stay in it, and a rule that has none is
dropped.  In the nested style the rules that follow a kept rule are indented one
level deeper than before.  The rules that take the place of a rule with no
enclosing rule form a group, and the last one of them ends the group.

Directives start afresh: a rule inside a directive has no enclosing rule.
-/

namespace NestedSheet

/-- Indents a rule one level deeper. -/
def Rule.deepen (rule : Rule) : Rule :=
  { rule with depth := rule.depth + 1 }

/-- Marks whether a rule ends its group. -/
def Rule.withGroupEnd (isEnd : Bool) (rule : Rule) : Rule :=
  { rule with groupEnd := isEnd }

namespace Node

/-- Does the node stay in its rule when the rule is flattened? -/
def isOwn (node : Node) : Bool :=
  !node.isRule && node.visible

/-- The rules of a group: the last one ends it and the others do not. -/
def endGroup : List Node → List Node
  | [] => []
  | [last] => [last.mapRule (Rule.withGroupEnd true)]
  | node :: next :: nodes => node.mapRule (Rule.withGroupEnd false) :: endGroup (next :: nodes)

/-- The rules that take the place of a rule whose children are flat already:
the rule with its own children, if it has any, and then the rules among its
children. -/
def splice (style : Style) (rule : Rule) (children : List Node) : List Node :=
  let own := children.filter isOwn
  let rules := children.filter isRule
  -- a rule with nothing of its own only makes way for the rules below it
  if own.isEmpty then rules
  else .rule rule own :: if style = .nested then rules.map (mapRule Rule.deepen) else rules

/-- The rules that take the place of a rule whose children are flat already; if
the rule has no enclosing rule, they are a group. -/
def flattenRule (style : Style) (enclosed : Bool) (rule : Rule) (children : List Node) :
    List Node :=
  if enclosed then splice style rule children else endGroup (splice style rule children)

mutual

/-- The nodes that take the place of a node once everything below it is flat;
`enclosed` tells whether the node stands in a rule. -/
def flatten (style : Style) (enclosed : Bool) : Node → List Node
  | rule r children => flattenRule style enclosed r (flattenAll style true children)
  -- a block starts afresh: no rule outside of it encloses those inside
  | block d children => [block d (flattenAll style false children)]
  | declaration d => [declaration d]
  | directive d => [directive d]
  | sheet path children => [sheet path children]

/-- The nodes that take the place of a list of nodes. -/
def flattenAll (style : Style) (enclosed : Bool) : List Node → List Node
  | [] => []
  | node :: nodes => flatten style enclosed node ++ flattenAll style enclosed nodes

end

theorem flattenAll_append (style : Style) (enclosed : Bool) (nodes others : List Node) :
    flattenAll style enclosed (nodes ++ others)
      = flattenAll style enclosed nodes ++ flattenAll style enclosed others := by
  induction nodes with
  | nil => simp [flattenAll]
  | cons node nodes ih => simp [flattenAll, ih]

/-- Flattens one rule whose children are flat, if none of them is a sheet. -/
def flattenRule? (style : Style) (enclosed : Bool) (rule : Rule) (children : List Node) :
    Except Unsupported (List Node) := do
  Unsupported.refuse .splice (children.find? isSheet)
  pure (flattenRule style enclosed rule children)

/-- Flattens a list of trees, if there is no sheet in them. -/
def flattenAll? (style : Style) (enclosed : Bool) (nodes : List Node) :
    Except Unsupported (List Node) := do
  Unsupported.refuse .flatten (firstOf? isSheet nodes)
  pure (flattenAll style enclosed nodes)

end Node

end NestedSheet
