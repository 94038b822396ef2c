import NestedSheet.Origin
import NestedSheet.Selector.Basic

/-!
# Nodes of a stylesheet

A stylesheet is a tree of rules, declarations and directives.  What a node says
by itself is kept in a record (`Rule`, `Declaration`, `Directive`); `Node` adds
the children.  A sheet may also stand inside a tree, but there it is a node that
no pass of the compilation and no layout supports.

A node is determined by what it says by itself and by its children
(`ext_head_children`).
-/

namespace NestedSheet

/-- What a rule says by itself. -/
structure Rule where
  /-- The selector lines as written, meant to be joined by commas. -/
  lines : List Text := []
  /-- The alternatives of each line, once interpolated and read. -/
  parsed : Option (List Selector.Line) := none
  /-- The selectors of each line, once combined with the enclosing rule. -/
  resolved : Option Selector.Resolved := none
  /-- How many levels the rule is indented by. -/
  depth : Int := 0
  /-- Is the rule the last one of its group? -/
  groupEnd : Bool := false
  origin : Origin := {}
deriving DecidableEq, Repr, Inhabited

/-- A declaration `name: value`. -/
structure Declaration where
  name : Text
  value : Text
  important : Bool := false
  origin : Origin := {}
deriving DecidableEq, Repr, Inhabited

/-- What a directive such as `@media print` says by itself. -/
structure Directive where
  value : Text
  origin : Origin := {}
deriving DecidableEq, Repr, Inhabited

/-- A node of a stylesheet. -/
inductive Node where
  | rule (rule : Rule) (children : List Node)
  | declaration (declaration : Declaration)
  /-- A directive without a block. -/
  | directive (directive : Directive)
  /-- A directive with a block. -/
  | block (directive : Directive) (children : List Node)
  /-- A sheet inside a tree, which nothing supports. -/
  | sheet (path : Option Text) (children : List Node)
deriving Repr, Inhabited

namespace Node

mutual

/-- Whether two nodes are equal. -/
def decEq : (a b : Node) → Decidable (a = b)
  | rule r cs, rule s ds =>
    letI := decEqAll cs ds
    decidable_of_iff (r = s ∧ cs = ds) (by simp)
  | declaration d, declaration e => decidable_of_iff (d = e) (by simp)
  | directive d, directive e => decidable_of_iff (d = e) (by simp)
  | block d cs, block e ds =>
    letI := decEqAll cs ds
    decidable_of_iff (d = e ∧ cs = ds) (by simp)
  | sheet path cs, sheet other ds =>
    letI := decEqAll cs ds
    decidable_of_iff (path = other ∧ cs = ds) (by simp)
  | rule .., declaration _ | rule .., directive _ | rule .., block .. | rule .., sheet ..
  | declaration _, rule .. | declaration _, directive _ | declaration _, block ..
  | declaration _, sheet .. | directive _, rule .. | directive _, declaration _
  | directive _, block .. | directive _, sheet .. | block .., rule .. | block .., declaration _
  | block .., directive _ | block .., sheet .. | sheet .., rule .. | sheet .., declaration _
  | sheet .., directive _ | sheet .., block .. => .isFalse nofun

/-- Whether two lists of nodes are equal. -/
def decEqAll : (as bs : List Node) → Decidable (as = bs)
  | [], [] => .isTrue rfl
  | [], _ :: _ | _ :: _, [] => .isFalse nofun
  | a :: as, b :: bs =>
    letI := decEq a b
    letI := decEqAll as bs
    decidable_of_iff (a = b ∧ as = bs) (by simp)

end

instance : DecidableEq Node := decEq

end Node

/-- A stylesheet: the file it was read from, if any, and its nodes. -/
structure Sheet where
  path : Option Text := none
  children : List Node := []
deriving DecidableEq, Repr, Inhabited

/-- A selector line that ends with a comma is continued, so the rule is
continued if its last line is. -/
def Rule.continued (rule : Rule) : Bool :=
  rule.lines.getLast?.any Selector.isContinued

/-- Adds the selector lines of another rule. -/
def Rule.addLines (rule other : Rule) : Rule :=
  { rule with lines := rule.lines ++ other.lines }

/-- What a node says by itself. -/
inductive Head where
  | rule (rule : Rule)
  | declaration (declaration : Declaration)
  | directive (directive : Directive)
  | sheet (path : Option Text)
deriving DecidableEq, Repr, Inhabited

/-- A declaration with an empty value leaves no trace in the output. -/
def Head.visible : Head → Bool
  | declaration d => !d.value.isEmpty
  | _ => true

namespace Node

/-- Is the node a rule? -/
def isRule : Node → Bool
  | rule .. => true
  | _ => false

/-- Is the node a declaration? -/
def isDeclaration : Node → Bool
  | declaration _ => true
  | _ => false

/-- Is the node a sheet? -/
def isSheet : Node → Bool
  | sheet .. => true
  | _ => false

/-- A declaration with an empty value leaves no trace in the output. -/
def visible : Node → Bool
  | declaration d => !d.value.isEmpty
  | _ => true

/-- What the node says by itself. -/
def head : Node → Head
  | rule r _ => .rule r
  | declaration d => .declaration d
  | directive d => .directive d
  | block d _ => .directive d
  | sheet path _ => .sheet path

/-- The children of the node, if it is one that has children. -/
def children? : Node → Option (List Node)
  | rule _ children => some children
  | declaration _ => none
  | directive _ => none
  | block _ children => some children
  | sheet _ children => some children

@[simp] theorem visible_head (node : Node) : node.head.visible = node.visible := by
  cases node <;> rfl

theorem ext_head_children {a b : Node} (hh : a.head = b.head) (hc : a.children? = b.children?) :
    a = b := by
  cases a <;> cases b <;> simp_all [head, children?]

/-- Changes what a rule says by itself; other nodes stay as they are. -/
def mapRule (f : Rule → Rule) : Node → Node
  | rule r children => rule (f r) children
  | node => node

@[simp] theorem isRule_mapRule (f : Rule → Rule) (node : Node) :
    (node.mapRule f).isRule = node.isRule := by
  cases node <;> rfl

theorem isRule_iff {node : Node} : node.isRule = true ↔ ∃ r children, node = rule r children := by
  cases node <;> simp [isRule]

/-! ## The first node of a kind -/

mutual

/-- The first node of a tree, in reading order, that has a property. -/
def first? (p : Node → Bool) : Node → Option Node
  | rule r children =>
    if p (rule r children) then some (rule r children) else firstOf? p children
  | declaration d => if p (declaration d) then some (declaration d) else none
  | directive d => if p (directive d) then some (directive d) else none
  | block d children =>
    if p (block d children) then some (block d children) else firstOf? p children
  | sheet path children =>
    if p (sheet path children) then some (sheet path children) else firstOf? p children

/-- The first node of a list of trees that has a property. -/
def firstOf? (p : Node → Bool) : List Node → Option Node
  | [] => none
  | node :: nodes =>
    match first? p node with
    | some found => some found
    | none => firstOf? p nodes

end

end Node

end NestedSheet
