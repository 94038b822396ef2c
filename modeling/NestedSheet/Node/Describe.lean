import NestedSheet.Node.Basic
import NestedSheet.Text.Quoted

/-!
# Nodes in messages

How a node is named in a message.  A rule is shown by its selectors, or by its
selector lines as long as it has no selectors.
-/

namespace NestedSheet

/-- A truth value in a message. -/
def Text.ofBool (b : Bool) : Text :=
  if b then "True".toList else "False".toList

/-- The selectors of a rule in a message. -/
def Rule.describeSelectors (rule : Rule) : Text :=
  match rule.resolved with
  | some (line :: lines) => Text.quotedRows (line :: lines)
  | _ => Text.quotedList rule.lines

namespace Head

/-- The name of a kind of node in a message. -/
def kindName : Head → Text
  | rule _ => "RuleNode".toList
  | declaration _ => "PropNode".toList
  | directive _ => "DirectiveNode".toList
  | sheet _ => "Stylesheet".toList

/-- What is said about a node with a number of children, which is told only of a
sheet. -/
def details (count : Nat) : Head → Text
  | rule r =>
    r.describeSelectors ++ " depth=".toList ++ Text.ofInt r.depth ++ " groupEnd=".toList
      ++ Text.ofBool r.groupEnd
  | declaration d => d.name ++ ": ".toList ++ d.value
  | directive d => d.value
  | sheet path =>
    path.getD "None".toList ++ " (".toList ++ Text.ofNat count ++ " nodes)".toList

/-- A node with a number of children in a message. -/
def describe (count : Nat) (head : Head) : Text :=
  '<' :: head.kindName ++ ' ' :: head.details count ++ ['>']

end Head

/-- A node in a message. -/
def Node.describe (node : Node) : Text :=
  node.head.describe (node.children?.getD []).length

end NestedSheet
