import NestedSheet.Layout
import NestedSheet.Source.Read

/-!
# From a stylesheet to CSS

Reading a nested stylesheet, compiling it and writing it out, in one step.
-/

namespace NestedSheet

/-- Why a text has no CSS. -/
inductive Error where
  /-- The text is not a stylesheet. -/
  | read (cause : ReadError)
  /-- The stylesheet cannot be compiled. -/
  | compile (cause : CompileError)
deriving DecidableEq, Repr, Inhabited

/-- What is said about a text that has no CSS. -/
def Error.message : Error → Text
  | read cause => cause.message
  | compile cause => cause.message

/-- Reads a text and compiles it to a flat sheet. -/
def compileText (options : Options) (path : Option Text) (t : Text) : Except Error Sheet := do
  let sheet ← (Sheet.read path t).mapError .read
  (sheet.compile options).mapError .compile

/-- The CSS of a text. -/
def cssOfText (options : Options) (path : Option Text) (t : Text) : Except Error Text := do
  let sheet ← (Sheet.read path t).mapError .read
  (sheet.toCss options).mapError .compile

end NestedSheet
