import NestedSheet.Node.Describe

/-!
# Unsupported nodes

Every stage of the compilation works on rules, declarations and directives.  A
sheet inside a tree is refused by the stage that meets it first.
-/

namespace NestedSheet

/-- A stage of the compilation that refuses sheets inside a tree. -/
inductive Stage where
  /-- Interpolating and reading the selectors. -/
  | prepare
  /-- Combining the selectors with those of the enclosing rules. -/
  | resolve
  /-- Flattening a tree. -/
  | flatten
  /-- Flattening one rule whose children are flat already. -/
  | splice
  /-- Writing the output. -/
  | layout
deriving DecidableEq, Repr, Inhabited

/-- A node that a stage does not support. -/
structure Unsupported where
  stage : Stage
  /-- The node as it is named in messages. -/
  node : Text
deriving DecidableEq, Repr, Inhabited

namespace Unsupported

/-- What is said about a node that a stage does not support. -/
def message (e : Unsupported) : Text :=
  match e.stage with
  | .prepare => "Compiler.perform: ".toList ++ e.node ++ " not supported".toList
  | .resolve => "Compiler.resolve: ".toList ++ e.node ++ " not supported".toList
  | .flatten => "Compiler.cssize: ".toList ++ e.node ++ " not supported".toList
  | .splice => "Cannot flatten node of kind None: ".toList ++ e.node
  | .layout => "CSSWriter: ".toList ++ e.node ++ " not supported".toList

/-- Refuses the node that was found, if one was. -/
def refuse (stage : Stage) : Option Node → Except Unsupported Unit
  | some node => .error ⟨stage, node.describe⟩
  | none => .ok ()

end Unsupported

end NestedSheet
