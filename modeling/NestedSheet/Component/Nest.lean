import NestedSheet.Component.Lexeme

/-!
# Matching brackets

The components of a text are its lexemes with the brackets matched.  While the
lexemes are read, the functions and blocks that are open are kept as a stack of
frames.  A closing bracket closes the innermost one if it is of its kind, and is
otherwise a fault; what is still open at the end is closed there.  Comments are
dropped.

A text with an integer that has too many digits is not read at all (`Component.parse`),
wherever the integer stands.
-/

namespace NestedSheet

/-- What a closing bracket closes. -/
inductive Opener where
  | function (name : Text)
  | block (bracket : Bracket)
deriving DecidableEq, Repr, Inhabited

/-- The bracket that closes a function or a block. -/
def Opener.bracket : Opener → Bracket
  | function _ => .round
  | block b => b

/-- The function or the block with its components. -/
def Opener.close (opener : Opener) (p : Position) (content : List Component) : Component :=
  match opener with
  | function name => .function p name content
  | block bracket => .block p bracket content

/-- An open function or block, and the components before it, the latest first. -/
structure Frame where
  position : Position
  opener : Opener
  before : List Component
deriving Repr, Inhabited

/-- The components of the frame around, once this one is closed. -/
def Frame.close (frame : Frame) (inside : List Component) : List Component :=
  frame.opener.close frame.position inside.reverse :: frame.before

namespace Component

/-- Closes all that is open. -/
def closeAll (frames : List Frame) (inside : List Component) : List Component :=
  (frames.foldl (fun inside frame => frame.close inside) inside).reverse

/-- The components of lexemes that come after some open frames, with the latest
components of the innermost one. -/
def nest : List Frame → List Component → List (Position × Lexeme) → List Component
  | frames, inside, [] => closeAll frames inside
  | frames, inside, (p, .leaf l) :: lexemes => nest frames (.leaf p l :: inside) lexemes
  | frames, inside, (_, .comment _) :: lexemes => nest frames inside lexemes
  | frames, inside, (p, .function name) :: lexemes =>
    nest (⟨p, .function name, inside⟩ :: frames) [] lexemes
  | frames, inside, (p, .opening bracket) :: lexemes =>
    nest (⟨p, .block bracket, inside⟩ :: frames) [] lexemes
  | [], inside, (p, .closing bracket) :: lexemes =>
    nest [] (.leaf p (.unmatched bracket) :: inside) lexemes
  | frame :: frames, inside, (p, .closing bracket) :: lexemes =>
    -- a bracket of another kind closes nothing, not even further out
    if frame.opener.bracket = bracket then nest frames (frame.close inside) lexemes
    else nest (frame :: frames) (.leaf p (.unmatched bracket) :: inside) lexemes

/-- The components of a text, with integers of any length. -/
def ofText (t : Text) : List Component :=
  nest [] [] (Lexeme.scan {} t)

/-- The components of a text, or how many digits its first integer with too many of them
has. -/
def parse (t : Text) : Except Nat (List Component) :=
  match Lexeme.firstExcess? (Lexeme.scan {} t) with
  | some count => .error count
  | none => .ok (ofText t)

theorem parse_eq_ok {t : Text} {components : List Component} :
    parse t = .ok components
      ↔ Lexeme.firstExcess? (Lexeme.scan {} t) = none ∧ ofText t = components := by
  unfold parse
  split
  · next h => simp [h]
  · next h => simp [h]

end Component

end NestedSheet
