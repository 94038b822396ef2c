import NestedSheet.Text.Blank
import NestedSheet.Text.Span
import NestedSheet.Text.Word

/-!
# Variables

An environment gives values to the variables of a stylesheet.  A reference is a
dollar sign with the longest run of word characters after it.  Interpolation
cuts a text into pieces from left to right (a complete quoted span, else a
reference, else one character) and puts the value of each variable in the
place of its references.  Quoted spans are kept as they stand, and a value is
not scanned again.
-/

namespace NestedSheet

/-- The value of a variable. -/
inductive Value where
  | text (content : Text)
  | int (number : Int)
deriving DecidableEq, Repr, Inhabited

/-- The text that a value is interpolated as. -/
def Value.toText : Value → Text
  | .text content => content
  | .int number => Text.ofInt number

/-- The values of the variables, by name. -/
structure Environment where
  entries : List (Text × Value) := []
deriving Repr, Inhabited

namespace Environment

/-- The value of a variable, if it has one. -/
def get? (env : Environment) (name : Text) : Option Value :=
  env.entries.lookup name

/-- Does the variable have a value? -/
def has (env : Environment) (name : Text) : Bool :=
  (env.get? name).isSome

private def setEntry (name : Text) (value : Value) : List (Text × Value) → List (Text × Value)
  | [] => [(name, value)]
  | entry :: entries =>
    if entry.1 = name then (name, value) :: entries else entry :: setEntry name value entries

/-- Gives a variable a value, in the place of the one it had. -/
def set (env : Environment) (name : Text) (value : Value) : Environment :=
  ⟨setEntry name value env.entries⟩

/-- The variable that was set has the new value, and the others keep theirs. -/
theorem get?_set (env : Environment) (name other : Text) (value : Value) :
    (env.set name value).get? other = if other = name then some value else env.get? other := by
  obtain ⟨entries⟩ := env
  simp only [get?, set]
  induction entries with
  | nil =>
    by_cases h : other = name
    · simp [setEntry, h]
    · simp [setEntry, h, List.lookup_cons, beq_false_of_ne h]
  | cons entry entries ih =>
    obtain ⟨key, old⟩ := entry
    by_cases hk : key = name
    · subst hk
      by_cases h : other = key
      · simp [setEntry, h]
      · simp [setEntry, h, List.lookup_cons, beq_false_of_ne h]
    · by_cases h : other = key
      · subst h
        simp [setEntry, hk]
      · simp [setEntry, List.lookup_cons, hk, beq_false_of_ne h, ih]

/-- The names of the variables in the order of their code points. -/
def names (env : Environment) : List Text :=
  (env.entries.map Prod.fst).mergeSort Text.notAfter

/-- The environment as it is shown in messages: the names of its variables. -/
def describe (env : Environment) : Text :=
  "<Environment ".toList ++ (", ".toList).intercalate env.names ++ ['>']

end Environment

/-! ## Interpolation -/

/-- A piece of a text that is interpolated. -/
inductive Piece where
  /-- Text that is kept as it stands. -/
  | verbatim (text : Text)
  /-- A reference to a variable. -/
  | reference (name : Text)
deriving DecidableEq, Repr, Inhabited

namespace Piece

/-- The first piece of a text that starts with `c`, and the text after it. -/
def next (c : Char) (cs : Text) : Piece × Text :=
  match Text.completeSpan? (c :: cs) with
  | some (span, rest) => (.verbatim span, rest)
  | none =>
    if c = '$' ∧ cs.takeWhile Text.isWord ≠ [] then
      (.reference (cs.takeWhile Text.isWord), cs.dropWhile Text.isWord)
    else (.verbatim [c], cs)

theorem next_length (c : Char) (cs : Text) : (next c cs).2.length ≤ cs.length := by
  rw [next]
  split
  · next h => exact Text.completeSpan?_length h
  · split
    · exact (List.dropWhile_sublist _).length_le
    · exact Nat.le_refl _

/-- The pieces of a text, from left to right. -/
def ofText : Text → List Piece
  | [] => []
  | c :: cs => (next c cs).1 :: ofText (next c cs).2
termination_by t => t.length
decreasing_by have := next_length c cs; simp only [List.length_cons]; omega

/-- The text that a piece stands for, or the name of the variable that has no
value. -/
def eval (env : Environment) : Piece → Except Text Text
  | .verbatim text => .ok text
  | .reference name =>
    match env.get? name with
    | some value => .ok value.toText
    | none => .error name

end Piece

/-- Puts the values of the variables in the place of their references, or tells
the leftmost variable that has no value. -/
def Environment.interpolate (env : Environment) (t : Text) : Except Text Text :=
  ((Piece.ofText t).mapM (Piece.eval env)).map List.flatten

/-! ## Definitions -/

/-- A definition that has no equals sign. -/
structure MalformedDefinition where
  definition : Text
deriving DecidableEq, Repr

/-- What is said about a malformed definition. -/
def MalformedDefinition.message (e : MalformedDefinition) : Text :=
  "Expected NAME=VALUE, got `".toList ++ e.definition ++ ['`']

/-- The name and the value of a definition `NAME=VALUE`, without the blanks at
their ends and without the dollar signs before the name. -/
def definition (t : Text) : Except MalformedDefinition (Text × Text) :=
  if t.contains '=' then
    let name := Text.strip (t.takeWhile (· != '='))
    .ok (name.dropWhile (· == '$'), Text.strip ((t.dropWhile (· != '=')).drop 1))
  else .error ⟨t⟩

/-- The environment of a list of definitions; a later one replaces an earlier
one of the same variable. -/
def Environment.ofDefinitions (definitions : List Text) :
    Except MalformedDefinition Environment :=
  definitions.foldlM (fun env t => do
    let (name, value) ← definition t
    pure (env.set name (.text value))) {}

end NestedSheet
