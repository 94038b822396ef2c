import NestedSheet.Component.Declaration
import NestedSheet.Component.Nest
import NestedSheet.Node.Basic
import NestedSheet.Source.Basic
import NestedSheet.Source.Comment

/-!
# Reading a stylesheet

A stylesheet is read as components, which semicolons and blocks in curly brackets
divide into statements.  A statement that a block follows is a rule, or a
directive if it starts with an at-keyword; any other statement is a declaration
or a directive without a block.

The text of a selector or a directive is what stands in the source, without
comments; a statement that nothing ends is written anew from its components.
A prelude can have components and still have no text, because more characters are
blank than separate components.

Before all that the text is divided into components, which fails if an integer has too
many digits.  Blocks may stand in each other to any depth.
-/

namespace NestedSheet

/-! ## Errors -/

/-- Why a text is not a stylesheet. -/
inductive ReadError where
  /-- An integer with more digits than can be turned into a value. -/
  | longInteger (digits : Nat)
  /-- A faulty component. -/
  | fault (cause : Fault) (line : Nat)
  /-- A block that nothing stands before. -/
  | noSelector (line : Nat)
  /-- A block that has components before it but no text. -/
  | blankSelector
  /-- A statement that is not a declaration. -/
  | notDeclaration (statement : Text) (cause : Component.NotDeclaration) (line : Nat)
  /-- A declaration outside of rules and directives. -/
  | strayDeclaration (name : Text) (line : Int)
deriving DecidableEq, Repr, Inhabited

namespace ReadError

/-- The line that the error is on, if it is known. -/
def line? : ReadError → Option Int
  | longInteger _ => none
  | fault _ line => some line
  | noSelector line => some line
  | blankSelector => none
  | notDeclaration _ _ line => some line
  | strayDeclaration _ line => some line

/-- Is the error one of the syntax of the stylesheet?  These are the errors with a line. -/
def isSyntax (e : ReadError) : Bool :=
  e.line?.isSome

/-- What is said about a text that is not a stylesheet. -/
def message : ReadError → Text
  | longInteger digits =>
    "Exceeds the limit (".toList ++ Text.ofNat Component.maxDigits
      ++ " digits) for integer string conversion: value has ".toList ++ Text.ofNat digits
      ++ " digits; use sys.set_int_max_str_digits() to increase the limit".toList
  | fault cause line => cause.message ++ " at line ".toList ++ Text.ofNat line
  | noSelector line => "Block without selector at line ".toList ++ Text.ofNat line
  | blankSelector => "list index out of range".toList
  | notDeclaration statement cause line =>
    "Invalid declaration `".toList ++ statement ++ "` at line ".toList ++ Text.ofNat line
      ++ ": ".toList ++ cause.message
  | strayDeclaration name line =>
    "Properties are only allowed within rules: `".toList ++ name ++ "` at line ".toList
      ++ Text.ofInt line

end ReadError

/-! ## Statements -/

namespace Source

/-- The text of components, up to the position where they end if it is known. -/
def textOf (source : Source) (components : List Component) (stop : Option Position) : Text :=
  -- what nothing ends is written anew, as there is no position to cut at
  let text := match components, stop with
    | first :: _, some stop => source.slice first.position stop
    | _, _ => Component.printAll components
  Text.strip (removeComments text)

/-- The value of a directive: its lines, joined by spaces. -/
def directiveValue (source : Source) (components : List Component) (stop : Option Position) :
    Text :=
  [' '].intercalate (Text.strippedLines (source.textOf components stop))

/-- The origin of components that start with this one. -/
def originOf (source : Source) (first : Component) : Origin :=
  ⟨some first.position.line, source.path⟩

end Source

/-- Joins lines by spaces, except after a line that is continued: there a new
selector line starts. -/
def joinLines (current : Text) : List Text → List Text
  | [] => [current]
  | line :: lines =>
    -- the comma stays at the end of the line that it continues
    if Selector.isContinued current then current :: joinLines line lines
    else joinLines (current ++ ' ' :: line) lines

/-- The selector lines of the text before a block. -/
def selectorLines (t : Text) : List Text :=
  match Text.strippedLines t with
  | [] => []
  | line :: lines => joinLines line lines

/-- What stands before a block. -/
inductive Prelude where
  | rule (rule : Rule)
  | directive (directive : Directive)
deriving DecidableEq, Repr, Inhabited

/-- The node of a prelude with the children in its block. -/
def Prelude.toNode (children : List Node) : Prelude → Node
  | rule r => .rule r children
  | directive d => .block d children

/-- Reads the components before a block that starts at `stop`. -/
def readPrelude (source : Source) (components : List Component) (stop : Position) :
    Except ReadError Prelude :=
  match Component.strip components with
  | [] => .error (.noSelector stop.line)
  | first :: rest =>
    if first.isAtKeyword then
      .ok (.directive {
        value := source.directiveValue (first :: rest) (some stop)
        origin := source.originOf first })
    else match selectorLines (source.textOf (first :: rest) (some stop)) with
      | [] => .error .blankSelector
      | lines => .ok (.rule { lines, origin := source.originOf first })

/-- Reads the components of a statement without a block; `stop` is the position
of the semicolon that ends it, if one does. -/
def readStatement (source : Source) (components : List Component) (stop : Option Position) :
    Except ReadError (List Node) :=
  match Component.strip components with
  | [] => .ok []
  | first :: rest =>
    if first.isAtKeyword then
      .ok [.directive {
        value := source.directiveValue (first :: rest) stop
        origin := source.originOf first }]
    else match Component.readDeclaration (first :: rest) with
      | .ok parts => .ok [.declaration {
          name := parts.name
          value := Text.strip (Component.printAll parts.value)
          important := parts.important
          origin := source.originOf first }]
      | .error cause => .error (.notDeclaration
          (Text.strip (Component.printAll (first :: rest))) cause first.position.line)

/-! ## Content -/

mutual

/-- Reads the components of a block, or of the whole sheet, with those of the
statement that is not ended yet. -/
def readContent (source : Source) (pending : List Component) :
    List Component → Except ReadError (List Node)
  | [] => readStatement source pending none
  | c :: cs => do
    let (nodes, pending) ← readComponent source pending c
    let more ← readContent source pending cs
    pure (nodes ++ more)

/-- Reads one component after those of the statement that is not ended yet: the
nodes that it ends, and the components that are then not ended. -/
def readComponent (source : Source) (pending : List Component) :
    Component → Except ReadError (List Node × List Component)
  | .leaf p l =>
    match l.fault? with
    | some fault => .error (.fault fault p.line)
    | none =>
      -- only here does a semicolon end a statement, not inside brackets
      if l = .literal [';'] then do
        let nodes ← readStatement source pending (some p)
        pure (nodes, [])
      else pure ([], pending ++ [.leaf p l])
  | .function p name arguments => pure ([], pending ++ [.function p name arguments])
  | .block p bracket content =>
    -- blocks in other brackets are part of the statement
    if bracket = .curly then do
      let prelude ← readPrelude source pending p
      let children ← readContent source [] content
      pure ([prelude.toNode children], [])
    else pure ([], pending ++ [.block p bracket content])

end

/-- The first declaration of some nodes as an error, if there is one. -/
def refuseDeclarations : List Node → Except ReadError Unit
  | [] => .ok ()
  | .declaration d :: _ => .error (.strayDeclaration d.name (d.origin.line.getD 0))
  | _ :: nodes => refuseDeclarations nodes

/-- Reads the sheet of a text. -/
def Sheet.read (path : Option Text) (t : Text) : Except ReadError Sheet := do
  let source := Source.ofText path t
  let components ← (Component.parse source.text).mapError .longInteger
  let nodes ← readContent source [] components
  refuseDeclarations nodes
  pure { path, children := nodes }

end NestedSheet
