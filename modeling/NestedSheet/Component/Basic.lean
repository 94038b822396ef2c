import NestedSheet.Text.Basic

/-!
# Component values

The units that a stylesheet is made of: leaves such as identifiers, numbers and
strings, and the functions and blocks that hold further components.  Every
component knows the position that it starts at.

A string or a URL that the end of the text cuts off, a string with a newline in
it, a malformed URL and a closing bracket without its opening one are leaves
too; these are the faulty ones.
-/

namespace NestedSheet

/-! ## Positions -/

/-- A place in a text: a line and a column, both counted from one. -/
structure Position where
  line : Nat := 1
  column : Nat := 1
deriving DecidableEq, Repr, Inhabited

namespace Position

/-- The place after a character. -/
def next (p : Position) (c : Char) : Position :=
  if c = '\n' then ⟨p.line + 1, 1⟩ else ⟨p.line, p.column + 1⟩

/-- The place after a text. -/
def after (p : Position) (t : Text) : Position :=
  t.foldl next p

@[simp] theorem after_nil (p : Position) : p.after [] = p := rfl

@[simp] theorem after_append (p : Position) (t u : Text) : p.after (t ++ u) = (p.after t).after u :=
  List.foldl_append ..

end Position

/-! ## Components -/

/-- The three kinds of brackets. -/
inductive Bracket where
  | curly
  | square
  | round
deriving DecidableEq, Repr, Inhabited

namespace Bracket

/-- The character that opens. -/
def opening : Bracket → Char
  | curly => '{'
  | square => '['
  | round => '('

/-- The character that closes. -/
def closing : Bracket → Char
  | curly => '}'
  | square => ']'
  | round => ')'

/-- The bracket that a character opens. -/
def ofOpening? (c : Char) : Option Bracket :=
  if c = '{' then some curly
  else if c = '[' then some square
  else if c = '(' then some round
  else none

/-- The bracket that a character closes. -/
def ofClosing? (c : Char) : Option Bracket :=
  if c = '}' then some curly
  else if c = ']' then some square
  else if c = ')' then some round
  else none

theorem ofOpening?_opening (b : Bracket) : ofOpening? b.opening = some b := by
  cases b <;> rfl

theorem ofClosing?_closing (b : Bracket) : ofClosing? b.closing = some b := by
  cases b <;> rfl

end Bracket

/-- A component value that holds no further ones. -/
inductive Leaf where
  /-- A run of spaces, tabs and newlines. -/
  | whitespace (text : Text)
  | ident (name : Text)
  | atKeyword (name : Text)
  /-- A name after `#`, and whether an identifier could start where it does. -/
  | hash (name : Text) (isIdentifier : Bool)
  /-- A string; one that is not closed ends with the text. -/
  | string (value : Text) (closed : Bool)
  /-- A URL without quotes; one that is not closed ends with the text. -/
  | url (value : Text) (closed : Bool)
  /-- A number as it is written. -/
  | number (digits : Text)
  | percentage (digits : Text)
  | dimension (digits unit : Text)
  | unicodeRange (first last : Nat)
  /-- Any other character, or two or more that belong together. -/
  | literal (text : Text)
  /-- A string that a newline breaks. -/
  | badString
  /-- A URL with characters that it may not have. -/
  | badUrl
  /-- A closing bracket that closes nothing. -/
  | unmatched (bracket : Bracket)
deriving DecidableEq, Repr, Inhabited

/-- A component value. -/
inductive Component where
  | leaf (position : Position) (leaf : Leaf)
  | function (position : Position) (name : Text) (arguments : List Component)
  | block (position : Position) (bracket : Bracket) (content : List Component)
deriving Repr, Inhabited

namespace Component

mutual

/-- Whether two components are equal. -/
def decEq : (c d : Component) → Decidable (c = d)
  | leaf p l, leaf q m => decidable_of_iff (p = q ∧ l = m) (by simp)
  | function p name arguments, function q other others =>
    letI := decEqAll arguments others
    decidable_of_iff (p = q ∧ name = other ∧ arguments = others) (by simp)
  | block p bracket content, block q other others =>
    letI := decEqAll content others
    decidable_of_iff (p = q ∧ bracket = other ∧ content = others) (by simp)
  | leaf .., function .. | leaf .., block .. | function .., leaf .. | function .., block ..
  | block .., leaf .. | block .., function .. => .isFalse nofun

/-- Whether two lists of components are equal. -/
def decEqAll : (cs ds : List Component) → Decidable (cs = ds)
  | [], [] => .isTrue rfl
  | [], _ :: _ | _ :: _, [] => .isFalse nofun
  | c :: cs, d :: ds =>
    letI := decEq c d
    letI := decEqAll cs ds
    decidable_of_iff (c = d ∧ cs = ds) (by simp)

end

instance : DecidableEq Component := decEq

end Component

/-- What is wrong with a faulty leaf. -/
inductive Fault where
  | badString
  | badUrl
  | endInString
  | endInUrl
  | unmatched (bracket : Bracket)
deriving DecidableEq, Repr, Inhabited

/-- What is said about a faulty leaf. -/
def Fault.message : Fault → Text
  | badString => "Bad string token".toList
  | badUrl => "bad URL token".toList
  | endInString => "EOF in string".toList
  | endInUrl => "EOF in URL".toList
  | unmatched bracket => "Unmatched ".toList ++ [bracket.closing]

/-- What is wrong with a leaf, if it is a faulty one. -/
def Leaf.fault? : Leaf → Option Fault
  | string _ closed => if closed then none else some .endInString
  | url _ closed => if closed then none else some .endInUrl
  | badString => some .badString
  | badUrl => some .badUrl
  | unmatched bracket => some (.unmatched bracket)
  | _ => none

namespace Component

/-- Where a component starts. -/
def position : Component → Position
  | leaf p _ => p
  | function p _ _ => p
  | block p _ _ => p

/-- Is the component a run of whitespace? -/
def isWhitespace : Component → Bool
  | leaf _ (.whitespace _) => true
  | _ => false

/-- Is the component this literal? -/
def isLiteral (t : Text) : Component → Bool
  | leaf _ (.literal u) => t == u
  | _ => false

/-- Is the component an at-keyword? -/
def isAtKeyword : Component → Bool
  | leaf _ (.atKeyword _) => true
  | _ => false

/-- What a component is called in a message. -/
def kindName : Component → Text
  | leaf _ (.whitespace _) => "whitespace".toList
  | leaf _ (.ident _) => "ident".toList
  | leaf _ (.atKeyword _) => "at-keyword".toList
  | leaf _ (.hash _ _) => "hash".toList
  | leaf _ (.string _ _) => "string".toList
  | leaf _ (.url _ _) => "url".toList
  | leaf _ (.number _) => "number".toList
  | leaf _ (.percentage _) => "percentage".toList
  | leaf _ (.dimension _ _) => "dimension".toList
  | leaf _ (.unicodeRange _ _) => "unicode-range".toList
  | leaf _ (.literal _) => "literal".toList
  | leaf _ .badString => "error".toList
  | leaf _ .badUrl => "error".toList
  | leaf _ (.unmatched _) => "error".toList
  | function _ _ _ => "function".toList
  | block _ b _ => [b.opening, b.closing] ++ " block".toList

/-- The components without whitespace at the start and at the end. -/
def strip (components : List Component) : List Component :=
  ((components.dropWhile isWhitespace).reverse.dropWhile isWhitespace).reverse

end Component

end NestedSheet
