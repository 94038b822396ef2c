import NestedSheet.Node.Describe
import NestedSheet.Node.Same

/-!
# Drafts

A draft is a node that is being edited.  What it says by itself and its list of
children are set apart from each other: an edit may take the list away from a rule
or a sheet, and may give one to a declaration, where nothing shows it.

Not every operation is offered on every kind of node, and a sheet whose list was
taken away can neither be extended nor counted.

Main fact: two nodes are the same as drafts if and only if they are the same as
nodes (`same_ofNode`).
-/

namespace NestedSheet

/-- A node that is being edited. -/
structure Draft where
  head : Head
  children : Option (List Node)
deriving Repr, Inhabited

/-- Why a draft cannot be edited in some way. -/
inductive EditError where
  /-- The kind of node does not have the field. -/
  | noField (kind field : Text)
  /-- The operation is not offered on the kind of node. -/
  | notOffered (kind operation : Text)
  /-- There is no list of children that could be extended. -/
  | nothingToExtend
  /-- There is no list of children that could be counted. -/
  | nothingToCount
deriving DecidableEq, Repr, Inhabited

/-- What is said about an edit that fails. -/
def EditError.message : EditError → Text
  | noField kind field => kind ++ " has no field `".toList ++ field ++ ['`']
  | notOffered kind operation =>
    '\'' :: kind ++ "' object has no attribute '".toList ++ operation ++ ['\'']
  | nothingToExtend => "'NoneType' object has no attribute 'append'".toList
  | nothingToCount => "object of type 'NoneType' has no len()".toList

/-- Do two nodes say the same by themselves?  Of a sheet, only its nodes count. -/
def Head.same : Head → Head → Bool
  | rule r, rule s => r.lines == s.lines
  | declaration d, declaration e =>
    d.name == e.name && d.value == e.value && d.important == e.important
  | directive d, directive e => d.value == e.value
  | sheet _, sheet _ => true
  | _, _ => false

namespace Draft

/-- The draft of a node. -/
def ofNode (node : Node) : Draft :=
  ⟨node.head, node.children?⟩

/-! ## Comparing -/

/-- Do two lists of children say the same?  No list differs from an empty one. -/
def sameChildren : Option (List Node) → Option (List Node) → Bool
  | none, none => true
  | some nodes, some others => Node.sameAll nodes others
  | _, _ => false

/-- Do two drafts say the same? -/
def same (draft other : Draft) : Bool :=
  draft.head.same other.head && sameChildren draft.children other.children

theorem same_ofNode (a b : Node) : (ofNode a).same (ofNode b) = a.same b := by
  cases a <;> cases b <;>
    simp [ofNode, same, Head.same, sameChildren, Node.head, Node.children?, Node.same]

/-! ## Asking -/

/-- The rule of a draft, for an operation that is offered only on rules. -/
def rule (operation : Text) (draft : Draft) : Except EditError Rule :=
  match draft.head with
  | .rule r => .ok r
  | head => .error (.notOffered head.kindName operation)

/-- Is the rule continued on the next line? -/
def continued (draft : Draft) : Except EditError Bool := do
  let r ← draft.rule "continued".toList
  pure r.continued

/-- Does the directive have a block? -/
def hasBlock (draft : Draft) : Except EditError Bool :=
  match draft.head with
  | .directive _ => .ok draft.children.isSome
  | head => .error (.notOffered head.kindName "hasBlock".toList)

/-- The draft in a message, in which the nodes of a sheet are counted. -/
def describe (draft : Draft) : Except EditError Text :=
  match draft.head, draft.children with
  | .sheet _, none => .error .nothingToCount
  | head, children => .ok (head.describe (children.getD []).length)

theorem describe_ofNode (node : Node) : (ofNode node).describe = .ok node.describe := by
  cases node <;> rfl

/-! ## Adding -/

/-- The rule with the selector lines of another one added.  Whether the lines can
be added to the first draft is asked before anything about the second. -/
def addLines (draft other : Draft) : Except EditError Draft := do
  let r ← draft.rule "addRules".toList
  let s ← other.rule "rules".toList
  pure { draft with head := .rule (r.addLines s) }

/-- The sheet with nodes added at its end. -/
def add (draft : Draft) (nodes : List Node) : Except EditError Draft :=
  match draft.head, draft.children, nodes with
  | .sheet _, some children, nodes => .ok { draft with children := some (children ++ nodes) }
  | .sheet _, none, [] => .ok draft
  | .sheet _, none, _ :: _ => .error .nothingToExtend
  | head, _, _ => .error (.notOffered head.kindName "add".toList)

end Draft

end NestedSheet
