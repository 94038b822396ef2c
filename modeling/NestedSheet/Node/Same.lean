import NestedSheet.Node.Basic

/-!
# Nodes that say the same

Two trees say the same when they agree on everything that their author wrote:
selector lines, names, values, importance, directives and whether these have a
block, and, in order, the children.  Origins, and what the passes of the
compilation leave on a rule, do not count.

Main facts: the relation is reflexive (`same_refl`) and symmetric (`same_comm`).
-/

namespace NestedSheet.Node

mutual

/-- Do two nodes say the same? -/
def same : Node → Node → Bool
  | rule r children, rule s others => r.lines == s.lines && sameAll children others
  | declaration d, declaration e =>
    d.name == e.name && d.value == e.value && d.important == e.important
  | directive d, directive e => d.value == e.value
  | block d children, block e others => d.value == e.value && sameAll children others
  | sheet _ children, sheet _ others => sameAll children others
  | _, _ => false

/-- Do two lists of nodes say the same, node for node? -/
def sameAll : List Node → List Node → Bool
  | [], [] => true
  | node :: nodes, other :: others => same node other && sameAll nodes others
  | _, _ => false

end

mutual

theorem same_refl : ∀ node : Node, same node node = true
  | rule _ children => by simp [same, sameAll_refl children]
  | declaration _ => by simp [same]
  | directive _ => by simp [same]
  | block _ children => by simp [same, sameAll_refl children]
  | sheet _ children => by simp [same, sameAll_refl children]

theorem sameAll_refl : ∀ nodes : List Node, sameAll nodes nodes = true
  | [] => by simp [sameAll]
  | node :: nodes => by simp [sameAll, same_refl node, sameAll_refl nodes]

end

mutual

theorem same_comm : ∀ a b : Node, same a b = same b a
  | rule _ cs, rule _ ds => by simp only [same, sameAll_comm cs ds, Bool.beq_comm]
  | declaration _, declaration _ => by simp only [same, Bool.beq_comm]
  | directive _, directive _ => by simp only [same, Bool.beq_comm]
  | block _ cs, block _ ds => by simp only [same, sameAll_comm cs ds, Bool.beq_comm]
  | sheet _ cs, sheet _ ds => by simp only [same, sameAll_comm cs ds]
  | rule .., declaration _ | rule .., directive _ | rule .., block .. | rule .., sheet ..
  | declaration _, rule .. | declaration _, directive _ | declaration _, block ..
  | declaration _, sheet .. | directive _, rule .. | directive _, declaration _
  | directive _, block .. | directive _, sheet .. | block .., rule .. | block .., declaration _
  | block .., directive _ | block .., sheet .. | sheet .., rule .. | sheet .., declaration _
  | sheet .., directive _ | sheet .., block .. => rfl

theorem sameAll_comm : ∀ as bs : List Node, sameAll as bs = sameAll bs as
  | [], [] | [], _ :: _ | _ :: _, [] => rfl
  | a :: as, b :: bs => by simp only [sameAll, same_comm a b, sameAll_comm as bs]

end

end NestedSheet.Node
