import NestedSheet.Flatten
import NestedSheet.Selector.Parse
import NestedSheet.Selector.Resolve

/-!
# Compilation

A sheet is compiled in three passes, each over the whole of it: `prepare`
interpolates the selectors and values and reads the selectors, `resolve`
combines the selectors of each rule with those of the rule around it, and
`flatten` takes the rules out of their rules.

A variable without a value, and a parent reference in a rule that has no
enclosing rule, stop the compilation at the node they stand in.  The values of
directives and the names of declarations are not interpolated.

Each pass can also be run alone, and then a rule may lack what an earlier pass
would have given it.
-/

namespace NestedSheet

/-- Why a tree cannot be compiled. -/
inductive CompileError where
  /-- A reference to a variable that has no value. -/
  | undefined (name : Text) (origin : Origin)
  /-- A parent reference in a rule that has no enclosing rule. -/
  | unboundParent (origin : Origin)
  /-- A sheet inside a tree. -/
  | unsupported (cause : Unsupported)
  /-- A rule that lacks what an earlier stage gives it. -/
  | notReady (stage : Stage)
deriving DecidableEq, Repr, Inhabited

namespace CompileError

/-- Where the error arose, as far as it is known. -/
def origin : CompileError → Origin
  | undefined _ origin => origin
  | unboundParent origin => origin
  | unsupported _ => {}
  | notReady _ => {}

/-- What is said about the error, without the place. -/
def bareMessage : CompileError → Text
  | undefined name _ => "Undefined variable `$".toList ++ name ++ ['`']
  | unboundParent _ =>
    "Base-level rules cannot contain the parent-selector-referencing character '".toList
      ++ [Selector.parentMark, '\'', '.']
  | unsupported cause => cause.message
  | notReady _ => "'NoneType' object is not iterable".toList

/-- What is said about the error, with the place before it if it is known. -/
def message (e : CompileError) : Text :=
  e.origin.report e.bareMessage

end CompileError

/-- Interpolates a text of a node that comes from `origin`. -/
def Environment.interpolateAt (env : Environment) (origin : Origin) (t : Text) :
    Except CompileError Text :=
  (env.interpolate t).mapError fun name => .undefined name origin

/-- The selectors of a rule in an enclosing rule, if it has one.  The rule has to
be read before, unless the enclosing rule has no lines to combine it with. -/
def Rule.resolve (outer : Option Selector.Resolved) (rule : Rule) :
    Except CompileError Selector.Resolved :=
  match rule.parsed, outer with
  | some lines, outer =>
    match Selector.resolve lines outer with
    | some resolved => .ok resolved
    | none => .error (.unboundParent rule.origin)
  -- no line of the rule is looked at when there is nothing to combine it with
  | none, some [] => .ok []
  | none, _ => .error (.notReady .resolve)

namespace Node

mutual

/-- Interpolates the selectors and values of a tree and reads its selectors. -/
def prepare (env : Environment) : Node → Except CompileError Node
  | rule r children => do
    -- an error in the selectors comes before one in the children
    let lines ← r.lines.mapM (env.interpolateAt r.origin)
    let children ← prepareAll env children
    pure (rule { r with parsed := some (lines.map Selector.parse) } children)
  | declaration d => do
    let value ← env.interpolateAt d.origin d.value
    pure (declaration { d with value })
  -- variables are not replaced in the values of directives
  | directive d => pure (directive d)
  | block d children => do
    let children ← prepareAll env children
    pure (block d children)
  | sheet path children => .error (.unsupported ⟨.prepare, (sheet path children).describe⟩)

/-- Prepares a list of trees, one after the other. -/
def prepareAll (env : Environment) : List Node → Except CompileError (List Node)
  | [] => pure []
  | node :: nodes => do
    let node ← prepare env node
    let nodes ← prepareAll env nodes
    pure (node :: nodes)

end

mutual

/-- Combines the selectors of a tree with those of the enclosing rules; `outer`
holds the selectors of the rule that the tree stands in, if it stands in one. -/
def resolve (outer : Option Selector.Resolved) : Node → Except CompileError Node
  | rule r children => do
    let resolved ← r.resolve outer
    let children ← resolveAll (some resolved) children
    pure (rule { r with resolved := some resolved } children)
  | declaration d => pure (declaration d)
  | directive d => pure (directive d)
  | block d children => do
    -- the selectors around a block do not reach into it
    let children ← resolveAll none children
    pure (block d children)
  | sheet path children => .error (.unsupported ⟨.resolve, (sheet path children).describe⟩)

/-- Resolves a list of trees, one after the other. -/
def resolveAll (outer : Option Selector.Resolved) : List Node → Except CompileError (List Node)
  | [] => pure []
  | node :: nodes => do
    let node ← resolve outer node
    let nodes ← resolveAll outer nodes
    pure (node :: nodes)

end

end Node

/-- Compiles a sheet to a flat one, in which every rule has its selectors. -/
def Sheet.compile (options : Options) (sheet : Sheet) : Except CompileError Sheet := do
  let prepared ← Node.prepareAll options.environment sheet.children
  let resolved ← Node.resolveAll none prepared
  let flat ← (Node.flattenAll? options.style false resolved).mapError .unsupported
  pure { sheet with children := flat }

end NestedSheet
