import NestedSheet.Component.Print

/-!
# Components of a declaration

A declaration is an identifier, a colon and a value.  The value ends before an
exclamation mark that is followed by the identifier `important` and by nothing
else but whitespace; the declaration is then important.
-/

namespace NestedSheet.Component

/-- Why components are not a declaration. -/
inductive NotDeclaration where
  /-- There is no component. -/
  | empty
  /-- The first component is not an identifier. -/
  | noName (kind : Text)
  /-- Nothing follows the name. -/
  | noColon
  /-- Something other than a colon follows the name. -/
  | otherThanColon
deriving DecidableEq, Repr, Inhabited

/-- What is said about components that are not a declaration. -/
def NotDeclaration.message : NotDeclaration → Text
  | empty => "Input is empty".toList
  | noName kind => "Expected <ident> for declaration name, got ".toList ++ kind ++ ['.']
  | noColon => "Expected ':' after declaration name, got EOF".toList
  | otherThanColon =>
    "Expected ':' after declaration name, got ".toList ++ '{' :: "colon.type".toList ++ ['}', '.']

/-- How far the mark of importance has been read. -/
inductive Importance where
  | plain
  /-- An exclamation mark after this many components. -/
  | bang (index : Nat)
  /-- The whole mark, which starts after this many components. -/
  | important (index : Nat)
deriving DecidableEq, Repr, Inhabited

/-- Is the component the identifier `important` in any mix of cases? -/
def isImportant : Component → Bool
  | leaf _ (.ident name) => name.map Char.toLower == "important".toList
  | _ => false

/-- How far the mark is read after one more component, the one at `index`. -/
def Importance.step (index : Nat) (c : Component) : Importance → Importance
  | plain => if c.isLiteral ['!'] then bang index else plain
  -- whitespace may stand between the mark and the word, and after the word
  | bang start =>
    if isImportant c then important start else if c.isWhitespace then bang start else plain
  | important start => if c.isWhitespace then important start else plain

/-- How far the mark is read after components, the first one being the one at
`index`. -/
def Importance.run (state : Importance) (index : Nat) : List Component → Importance
  | [] => state
  | c :: cs => (state.step index c).run (index + 1) cs

/-- The components of a value without the mark of importance, and whether they
had one. -/
def splitImportant (value : List Component) : List Component × Bool :=
  match Importance.plain.run 0 value with
  | .important index => (value.take index, true)
  | _ => (value, false)

/-- The parts of a declaration. -/
structure DeclarationParts where
  name : Text
  value : List Component
  important : Bool
deriving Repr, Inhabited

/-- Reads components as a declaration. -/
def readDeclaration (components : List Component) : Except NotDeclaration DeclarationParts :=
  match components.dropWhile isWhitespace with
  | [] => .error .empty
  | leaf _ (.ident name) :: rest =>
    match rest.dropWhile isWhitespace with
    | [] => .error .noColon
    | colon :: value =>
      if colon.isLiteral [':'] then
        let parts := splitImportant value
        .ok ⟨name, parts.1, parts.2⟩
      else .error .otherThanColon
  | first :: _ => .error (.noName first.kindName)

end NestedSheet.Component
