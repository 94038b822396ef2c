import NestedSheet.Compile
import NestedSheet.Location

/-!
# Layout

The text of a flat sheet in one of four styles.  In the nested and the expanded
style every declaration has a line of its own, in the compact style every rule
has one, and the compressed style leaves out all that is not needed.  In the
first three styles each rule may be preceded by a note that tells where it
comes from.

The text of a node depends on its children only through their parts: a
declaration, whose text depends on where it is put, or a finished text.
-/

namespace NestedSheet

/-- What a node contributes to the text of the node around it. -/
inductive Part where
  | declaration (declaration : Declaration)
  | text (text : Text)
deriving Repr, Inhabited

/-- Does each declaration have a line of its own in the style? -/
def Style.multiline : Style → Bool
  | nested => true
  | expanded => true
  | compact => false
  | compressed => false

/-! ## Declarations -/

/-- The text of a declaration at a depth. -/
def Declaration.layout (style : Style) (depth : Int) (d : Declaration) : Text :=
  let value := d.value ++ if d.important then " !important".toList else []
  if style = .compressed then Text.indent depth ++ d.name ++ ':' :: value
  else Text.indent depth ++ d.name ++ ':' :: ' ' :: value ++ [';']

/-- The text of a part at a depth. -/
def Part.layout (style : Style) (depth : Int) : Part → Text
  | .declaration d => d.layout style depth
  | .text t => t

/-! ## Rules -/

/-- The selectors of a rule at a depth. -/
def Rule.selectors (style : Style) (depth : Int) (rule : Rule) : Text :=
  -- lines are kept apart in the first two styles and joined like selectors in the others
  let comma := if style = .compressed then [','] else [',', ' ']
  let lines := (rule.resolved.getD []).map fun line => comma.intercalate line
  if style.multiline then [',', '\n'].intercalate (lines.map fun line => Text.indent depth ++ line)
  else Text.indent depth ++ comma.intercalate lines

/-- The depth of the children of a rule at a depth. -/
def Rule.childDepth (style : Style) (depth : Int) : Int :=
  if style.multiline then depth + 1 else 1

/-- The texts of the children of a rule, without the newlines that they end with
and without those that are empty. -/
def Rule.childTexts (style : Style) (depth : Int) (parts : List Part) : List Text :=
  (parts.map fun part => Text.dropEndWhile (· == '\n') (part.layout style depth)).filter
    fun t => !t.isEmpty

/-- The text of a rule at a depth, with the note before it and the parts of its
children. -/
def Rule.layout (style : Style) (note : Text) (depth : Int) (rule : Rule)
    (parts : List Part) : Text :=
  let selectors := rule.selectors style depth
  let children := Rule.childTexts style (Rule.childDepth style depth) parts
  let groupEnd := if rule.groupEnd then ['\n'] else []
  match style with
  -- no notes in this style
  | .compressed =>
    selectors ++ '{' :: [';'].intercalate (children.map (Text.dropEndWhile (· == ';'))) ++ ['}']
  | .compact =>
    note ++ selectors ++ [' ', '{', ' '] ++ [' '].intercalate children ++ [' ', '}']
      ++ groupEnd
  | .nested =>
    note ++ selectors ++ [' ', '{', '\n'] ++ ['\n'].intercalate children ++ [' ', '}']
      ++ groupEnd
  | .expanded =>
    note ++ selectors ++ [' ', '{', '\n'] ++ ['\n'].intercalate children
      ++ '\n' :: Text.indent depth ++ '}' :: groupEnd

/-! ## Directives -/

/-- The spaces before a directive at a depth. -/
def Directive.indent (style : Style) (depth : Int) : Text :=
  if style = .compressed then [] else Text.indent depth

/-- The parts of a block, each on lines of its own. -/
def linesOf (style : Style) (depth : Int) (parts : List Part) : Text :=
  parts.flatMap fun part => part.layout style depth ++ ['\n']

/-- The parts of a compressed block: a semicolon stands only after a declaration
that another part follows. -/
def compressedOf : List Part → Text
  | [] => []
  | [part] => part.layout .compressed 1
  | .declaration d :: next :: parts =>
    d.layout .compressed 1 ++ ';' :: compressedOf (next :: parts)
  | .text t :: next :: parts => t ++ compressedOf (next :: parts)

/-- What stands before a part of a compact block. -/
inductive Before where
  | nothing
  | declaration
  | other
deriving DecidableEq, Repr

/-- The parts of a compact block: declarations that follow each other share a
line, and every other part has lines of its own. -/
def compactOf (depth : Int) : Before → List Part → Text
  | _, [] => []
  | .nothing, .declaration d :: parts =>
    d.layout .compact 1 ++ compactOf depth .declaration parts
  | .nothing, .text t :: parts => Text.strip t ++ compactOf depth .other parts
  | .declaration, .declaration d :: parts =>
    ' ' :: d.layout .compact 1 ++ compactOf depth .declaration parts
  | .other, .declaration d :: parts =>
    '\n' :: d.layout .compact depth ++ compactOf depth .declaration parts
  | _, .text t :: parts => '\n' :: Text.stripEnd t ++ compactOf depth .other parts

/-- The text of a directive with a block that is not empty. -/
def Directive.layoutBlock (style : Style) (depth : Int) (d : Directive) (parts : List Part) :
    Text :=
  let spaces := Text.indent depth
  match style with
  | .compressed => Text.stripEnd (d.value ++ '{' :: compressedOf parts) ++ ['}']
  | .compact =>
    Text.stripEnd (spaces ++ d.value ++ [' ', '{', ' '] ++ compactOf (depth + 1) .nothing parts)
      ++ [' ', '}', '\n']
  | .nested =>
    Text.stripEnd (spaces ++ d.value ++ [' ', '{', '\n'] ++ linesOf .nested (depth + 1) parts)
      ++ [' ', '}', '\n']
  | .expanded =>
    Text.stripEnd (spaces ++ d.value ++ [' ', '{', '\n'] ++ linesOf .expanded (depth + 1) parts)
      ++ '\n' :: spaces ++ ['}', '\n']

/-! ## Trees -/

namespace Node

mutual

/-- What a node at a depth contributes to the node around it, with `annotate`
giving the note of a rule at its depth. -/
def part (style : Style) (annotate : Rule → Int → Text) (depth : Int) : Node → Part
  | rule r children =>
    let depth := depth + r.depth
    .text (r.layout style (annotate r depth) depth
      (parts style annotate (Rule.childDepth style depth) children))
  | declaration d => .declaration d
  | directive d => .text (Directive.indent style depth ++ d.value ++ [';'])
  | block d children =>
    -- children that are not visible still count here
    if children.isEmpty then
      .text (Directive.indent style depth ++ d.value ++ [' ', '{', '}'])
    else
      .text (d.layoutBlock style depth
        (parts style annotate (if style = .compressed then 1 else depth + 1) children))
  | sheet _ _ => .text []

/-- The parts of the visible ones among some nodes. -/
def parts (style : Style) (annotate : Rule → Int → Text) (depth : Int) : List Node → List Part
  | [] => []
  | node :: nodes =>
    if node.visible then part style annotate depth node :: parts style annotate depth nodes
    else parts style annotate depth nodes

end

/-- The text of a tree at a depth. -/
def layout (style : Style) (annotate : Rule → Int → Text) (depth : Int) (node : Node) : Text :=
  (part style annotate depth node).layout style depth

end Node

/-- The text of the nodes of a sheet: each on lines of its own, except in the
compressed style, with one newline at the end unless there is no text. -/
def layoutSheet (style : Style) (annotate : Rule → Int → Text) (nodes : List Node) : Text :=
  -- the blanks at the end are trimmed whichever way the parts are joined
  let parts := Node.parts style annotate 1 nodes
  let body := Text.stripEnd
    (if style = .compressed then parts.flatMap (Part.layout style 1) else linesOf style 1 parts)
  if body.isEmpty then [] else body ++ ['\n']

/-! ## Notes -/

/-- No note. -/
def SourceNote.silent : Rule → Int → Text :=
  fun _ _ => []

/-- The comment that tells where a rule comes from. -/
def SourceNote.commentOf (options : Options) (rule : Rule) (depth : Int) : Text :=
  let line := match rule.origin.line with
    | some line => Text.ofInt line
    | none => "None".toList
  let file := match rule.origin.filename with
    | some (c :: cs) => ',' :: ' ' :: Path.shown options.directory options.base (c :: cs)
    | _ => []
  Text.indent depth ++ "/* line ".toList ++ line ++ file ++ " */\n".toList

/-- The directive that tells where a rule comes from, in the compressed style. -/
def SourceNote.structuredOf (options : Options) (rule : Rule) : Text :=
  (Location.directive options.directory rule.origin).layout .compressed SourceNote.silent 1
    ++ ['\n']

/-- The note that the options ask for. -/
def Options.annotate (options : Options) : Rule → Int → Text :=
  match options.note with
  | .off => SourceNote.silent
  | .comment => SourceNote.commentOf options
  | .structured => fun rule _ => SourceNote.structuredOf options rule

/-! ## Rendering -/

/-- Can the node itself not be written?  A sheet inside a tree cannot, and neither
can a rule without selectors. -/
def Node.isUnwritable : Node → Bool
  | .rule r _ => r.resolved.isNone
  | .sheet .. => true
  | _ => false

/-- Why a node that cannot be written is refused. -/
def Node.refusal : Node → CompileError
  | .rule .. => .notReady .layout
  | node => .unsupported ⟨.layout, node.describe⟩

/-- The text, unless a node was found that cannot be written. -/
def unlessFound (found : Option Node) (t : Text) : Except CompileError Text :=
  match found with
  | some node => .error node.refusal
  | none => .ok t

/-- The text of a tree at a depth, or the reason why its first node that cannot be
written is refused. -/
def Node.render (options : Options) (depth : Int) (node : Node) : Except CompileError Text :=
  match node with
  | .sheet _ children =>
    unlessFound (firstOf? isUnwritable children)
      (layoutSheet options.style options.annotate children)
  | node =>
    unlessFound (first? isUnwritable node) (node.layout options.style options.annotate depth)

/-- The text of a flat sheet. -/
def Sheet.render (options : Options) (sheet : Sheet) : Except CompileError Text :=
  (Node.sheet sheet.path sheet.children).render options 1

/-- The CSS of a sheet. -/
def Sheet.toCss (options : Options) (sheet : Sheet) : Except CompileError Text := do
  let flat ← sheet.compile options
  flat.render options

end NestedSheet
