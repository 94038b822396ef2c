import NestedSheet.Component.Name

/-!
# Writing components

The text of components.  Characters that a name, a string or a URL may not hold
as they are become escapes, and an empty comment is put between two components
that would otherwise be read as one.
-/

namespace NestedSheet.Component

/-! ## Names, strings and URLs -/

/-- The escape of a character that no backslash can stand before, which is a
line control, if it is one. -/
def controlEscape? (c : Char) : Option Text :=
  if c = '\n' then some ['\\', 'A', ' ']
  else if c = '\r' then some ['\\', 'D', ' ']
  else if c = '\x0c' then some ['\\', 'C', ' ']
  else none

/-- A character after a backslash, or the escape of a line control. -/
def escaped (c : Char) : Text :=
  (controlEscape? c).getD ['\\', c]

/-- The text of a name. -/
def printName (name : Text) : Text :=
  name.flatMap fun c => if isNameChar c then [c] else escaped c

/-- A number in upper-case hexadecimal. -/
def hexUpper (n : Nat) : Text :=
  (Nat.toDigits 16 n).map Char.toUpper

/-- The text of the first character of an identifier. -/
def printFirst (c : Char) : Text :=
  if isNameStart c then [c]
  else if c.isDigit then '\\' :: hexUpper c.toNat ++ [' ']
  else escaped c

/-- The text of an identifier. -/
def printIdent (name : Text) : Text :=
  match name with
  | [] => []
  | ['-'] => ['\\', '-']
  | '-' :: '-' :: cs => '-' :: '-' :: printName cs
  | '-' :: c :: cs => '-' :: printFirst c ++ printName cs
  | c :: cs => printFirst c ++ printName cs

/-- The text of a unit: one that could be read as an exponent starts with an
escape. -/
def printUnit (name : Text) : Text :=
  match name with
  | ['e'] | ['E'] => "\\65 ".toList
  | 'e' :: '-' :: cs | 'E' :: '-' :: cs => "\\65 ".toList ++ printName ('-' :: cs)
  | _ => printIdent name

/-- A character of a string. -/
def printStringChar (c : Char) : Text :=
  if c = '"' ∨ c = '\\' then ['\\', c] else (controlEscape? c).getD [c]

/-- The text of a string, with its closing quote if it has one. -/
def printString (value : Text) (closed : Bool) : Text :=
  '"' :: value.flatMap printStringChar ++ if closed then ['"'] else []

/-- A character of a URL. -/
def printUrlChar (c : Char) : Text :=
  if c = '\'' ∨ c = '"' ∨ c = '\\' ∨ c = ' ' ∨ c = '(' ∨ c = ')' then ['\\', c]
  else if c = '\t' then ['\\', '9', ' ']
  else (controlEscape? c).getD [c]

/-- The text of a URL, with its closing bracket if it has one. -/
def printUrl (value : Text) (closed : Bool) : Text :=
  "url(".toList ++ value.flatMap printUrlChar ++ if closed then [')'] else []

/-- The text of a unicode range. -/
def printRange (first last : Nat) : Text :=
  if first = last then 'U' :: '+' :: hexUpper first
  else 'U' :: '+' :: hexUpper first ++ '-' :: hexUpper last

/-- The text of a leaf. -/
def printLeaf : Leaf → Text
  | .whitespace text => text
  | .ident name => printIdent name
  | .atKeyword name => '@' :: printIdent name
  | .hash name isIdentifier => '#' :: if isIdentifier then printIdent name else printName name
  | .string value closed => printString value closed
  | .url value closed => printUrl value closed
  | .number digits => digits
  | .percentage digits => digits ++ ['%']
  | .dimension digits unit => digits ++ printUnit unit
  | .unicodeRange first last => printRange first last
  | .literal text => text
  | .badString => "\"[bad string]\n".toList
  | .badUrl => "url([bad url])".toList
  | .unmatched bracket => [bracket.closing]

/-! ## Neighbours -/

/-- What matters about a component to its neighbours. -/
inductive Edge where
  | ident
  | atKeyword
  | hash
  | dimension
  | number
  | percentage
  | unicodeRange
  | function
  | url
  | parenthesis
  | literal (text : Text)
  | whitespace (text : Text)
  | other
deriving DecidableEq, Repr

/-- What matters about a component to its neighbours. -/
def edge : Component → Edge
  | leaf _ (.ident _) => .ident
  | leaf _ (.atKeyword _) => .atKeyword
  | leaf _ (.hash _ _) => .hash
  | leaf _ (.dimension _ _) => .dimension
  | leaf _ (.number _) => .number
  | leaf _ (.percentage _) => .percentage
  | leaf _ (.unicodeRange _ _) => .unicodeRange
  | leaf _ (.url _ _) => .url
  | leaf _ (.literal t) => .literal t
  | leaf _ (.whitespace t) => .whitespace t
  | function _ _ _ => .function
  | block _ .round _ => .parenthesis
  | _ => .other

namespace Edge

/-- A component that a name follows on from. -/
def endsName : Edge → Bool
  | ident | atKeyword | hash | dimension => true
  | _ => false

/-- A component that starts with an identifier. -/
def startsIdentLike : Edge → Bool
  | ident | function | url => true
  | _ => false

/-- A component that starts with a number. -/
def startsNumber : Edge → Bool
  | number | percentage | dimension => true
  | _ => false

/-- Is the component this one character? -/
def isMark (c : Char) : Edge → Bool
  | literal t => t == [c]
  | _ => false

/-- Is the component this literal? -/
def isLiteral (t : Text) : Edge → Bool
  | literal u => t == u
  | _ => false

/-- Would two neighbours be read differently if nothing stood between them? -/
def clash (a b : Edge) : Bool :=
  ((a.endsName || a.isMark '#' || a.isMark '-' || a == number)
      && (b.startsIdentLike || b.startsNumber || b == unicodeRange))
    || (a.endsName && (b.isMark '-' || b.isLiteral ['-', '-', '>']))
    || (a.isMark '@' && (b.startsIdentLike || b == unicodeRange || b.isMark '-'))
    || ((a == unicodeRange || a.isMark '.' || a.isMark '+') && b.startsNumber)
    || (a == unicodeRange && (b == ident || b == function || b.isMark '?'))
    || ((a.isMark '$' || a.isMark '*' || a.isMark '^' || a.isMark '~' || a.isMark '|')
      && b.isMark '=')
    || (a == ident && b == parenthesis)
    || (a.isMark '|' && b.isMark '|')
    || (a.isMark '/' && b.isMark '*')

/-- Whitespace that starts with a newline. -/
def startsNewline : Edge → Bool
  | whitespace ('\n' :: _) => true
  | _ => false

/-- What stands between two neighbours. -/
def between (a b : Edge) : Text :=
  if clash a b then "/**/".toList
  else if a.isMark '\\' && !b.startsNewline then ['\n']
  else []

end Edge

/-! ## Components -/

mutual

/-- Does the text end inside a string that is the last argument of the function,
or of the function that is its last argument, and so on? -/
def endsInString : List Component → Bool
  | [] => false
  | [last] => cutOff last
  | _ :: next :: rest => endsInString (next :: rest)

/-- Is the component a string that the end of the text cuts off, or a function
that ends in one? -/
def cutOff : Component → Bool
  | leaf _ (.string _ closed) => !closed
  | leaf _ _ => false
  | function _ _ arguments => endsInString arguments
  | block _ _ _ => false

end

mutual

/-- The text of a component. -/
def print : Component → Text
  | leaf _ l => printLeaf l
  | function _ name arguments =>
    printIdent name ++ '(' :: printAfter none arguments
      ++ if endsInString arguments then [] else [')']
  | block _ bracket content => bracket.opening :: printAfter none content ++ [bracket.closing]

/-- The text of components that come after a component with the edge given, if
they come after any. -/
def printAfter (previous : Option Edge) : List Component → Text
  | [] => []
  | c :: cs =>
    (match previous with
      | some e => e.between c.edge
      | none => []) ++ print c ++ printAfter (some c.edge) cs

end

/-- The text of a list of components. -/
def printAll (components : List Component) : Text :=
  printAfter none components

end NestedSheet.Component
