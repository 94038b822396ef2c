import NestedSheet.Proofs.Listing
import NestedSheet.Proofs.Shape

/-!
# The styles differ in layout only

The four styles write the same characters in the same order and differ in what
stands between them: blanks and, in the compressed style, the semicolons that are
left out.  The middle term of the comparison is the plain text of a tree, which
has no layout at all: no style, no depth and no group ends.  A filter that drops
every blank, and for the compressed style every semicolon, sees in the text of a
tree what it sees in the plain text.  The trees that are written in the four
styles differ in depths only, and these have no plain text.

Main results:

* `filter_part`, `filter_layoutSheet` — what a filter sees of a text in a style.
* `flattenAll_unplaced` — the flat trees are the same in all styles, but for where
  their rules are put.
* `toCss_styles` — all four texts of a sheet.
-/

namespace NestedSheet

/-! ## Plain text -/

/-- The text of a declaration without layout. -/
def Declaration.plain (d : Declaration) : Text :=
  d.name ++ ':' :: d.value ++ (if d.important then " !important".toList else []) ++ [';']

/-- The text of the selectors of a rule without layout. -/
def Rule.plainSelectors (rule : Rule) : Text :=
  [','].intercalate ((rule.resolved.getD []).map fun line => [','].intercalate line)

/-- The text of a part without layout. -/
def Part.plain : Part → Text
  | .declaration d => d.plain
  | .text t => t

namespace Node

mutual

/-- The text of a tree without layout, with `note` giving the note of a rule. -/
def plain (note : Rule → Text) : Node → Text
  | rule r children => note r ++ r.plainSelectors ++ '{' :: plainAll note children ++ ['}']
  | declaration d => d.plain
  | directive d => d.value ++ [';']
  | block d children => d.value ++ '{' :: plainAll note children ++ ['}']
  | sheet _ _ => []

/-- The text of the visible ones among some trees without layout. -/
def plainAll (note : Rule → Text) : List Node → Text
  | [] => []
  | node :: nodes =>
    if node.visible then plain note node ++ plainAll note nodes else plainAll note nodes

end

end Node

/-! ## What a filter sees of the parts -/

section Filter

variable {keep : Char → Bool} (hblank : ∀ c, Text.isBlank c = true → keep c = false)
  {style : Style} (hsemicolon : style = .compressed → keep ';' = false)

theorem filter_braces (before inside : Text) :
    (before ++ '{' :: inside ++ ['}']).filter keep
      = before.filter keep ++ (['{'] : Text).filter keep ++ inside.filter keep
        ++ (['}'] : Text).filter keep := by
  rw [List.filter_append, List.filter_append, ← List.singleton_append, List.filter_append]
  simp only [List.append_assoc]

include hblank

theorem filter_spacing {t : Text} (ht : Spacing t) : t.filter keep = [] := by
  rw [List.filter_eq_nil_iff]
  intro c hc
  rw [hblank c (ht.isBlank c hc)]
  exact Bool.false_ne_true

/-- Of a text in braces a filter does not see the spacing around the braces. -/
theorem filter_gaps {before gap inside close final : Text} (hgap : Spacing gap)
    (hclose : Spacing close) (hfinal : Spacing final) :
    (before ++ gap ++ '{' :: inside ++ close ++ '}' :: final).filter keep
      = (before ++ '{' :: inside ++ ['}']).filter keep := by
  have hend : ('}' :: final).filter keep = (['}'] : Text).filter keep := by
    rw [← List.singleton_append, List.filter_append, filter_spacing hblank hfinal, List.append_nil]
  have hopen : ('{' :: inside).filter keep = (['{'] : Text).filter keep ++ inside.filter keep := by
    rw [← List.singleton_append, List.filter_append]
  simp only [List.filter_append, hend, hopen, filter_spacing hblank hgap,
    filter_spacing hblank hclose, List.append_nil]

include hsemicolon

theorem filter_declaration (depth : Int) (d : Declaration) :
    (d.layout style depth).filter keep = d.plain.filter keep := by
  have hspace : keep ' ' = false := hblank ' ' rfl
  unfold Declaration.layout Declaration.plain
  generalize (if d.important = true then " !important".toList else []) = mark
  simp only
  split
  · next hstyle =>
    have hend : ([';'] : Text).filter keep = [] := by simp [hsemicolon hstyle]
    rw [List.filter_append, List.filter_append, Text.filter_indent hblank, List.nil_append,
      List.filter_append, hend, List.append_nil, ← List.filter_append, List.append_assoc]
    rfl
  · have hcolon : (':' :: ' ' :: (d.value ++ mark)).filter keep
        = (':' :: (d.value ++ mark)).filter keep := by
      simp [List.filter_cons, hspace]
    rw [List.filter_append, List.filter_append, List.filter_append, Text.filter_indent hblank,
      List.nil_append, hcolon, ← List.filter_append, ← List.filter_append]
    simp

theorem filter_partLayout (depth : Int) (part : Part) :
    (part.layout style depth).filter keep = part.plain.filter keep := by
  cases part with
  | declaration d => exact filter_declaration hblank hsemicolon depth d
  | text t => rfl

theorem filter_linesOf (depth : Int) (parts : List Part) :
    (linesOf style depth parts).filter keep = (parts.flatMap Part.plain).filter keep := by
  rw [linesOf, List.filter_flatMap, List.filter_flatMap]
  apply List.flatMap_congr
  intro part _
  have hbreak : (['\n'] : Text).filter keep = [] := filter_spacing hblank (by decide)
  rw [List.filter_append, filter_partLayout hblank hsemicolon, hbreak, List.append_nil]

/-- The texts of the children of a rule, with separators that the filter drops. -/
theorem filter_childTexts (depth : Int) (parts : List Part) :
    (Rule.childTexts style depth parts).flatMap (List.filter keep)
      = (parts.flatMap Part.plain).filter keep := by
  unfold Rule.childTexts
  induction parts with
  | nil => rfl
  | cons part parts ih =>
    have hpart : (Text.dropEndWhile (· == '\n') (part.layout style depth)).filter keep
        = part.plain.filter keep := by
      rw [Text.filter_dropEndWhile, filter_partLayout hblank hsemicolon]
      intro c hc
      rw [beq_iff_eq.1 hc, hblank '\n' rfl]
    rw [List.map_cons, List.filter_cons, List.flatMap_cons, List.filter_append, ← ih, ← hpart]
    split
    · rw [List.flatMap_cons]
    · next hempty =>
      -- a text that is left out has nothing that the filter could see
      have hnil : Text.dropEndWhile (· == '\n') (part.layout style depth) = [] := by
        simpa using hempty
      rw [hnil]
      rfl

omit hsemicolon in
theorem filter_selectors (depth : Int) (rule : Rule) :
    (rule.selectors style depth).filter keep = rule.plainSelectors.filter keep := by
  have hcomma : (if style = .compressed then [','] else [',', ' '] : Text).filter keep
      = ([','] : Text).filter keep := by
    split
    · rfl
    · simp [List.filter_cons, hblank ' ' rfl]
  have hbreak : ([',', '\n'] : Text).filter keep = ([','] : Text).filter keep := by
    simp [List.filter_cons, hblank '\n' rfl]
  have hindent : (Text.indent depth).filter keep = [] := Text.filter_indent hblank depth
  have hline : ∀ line : List Text,
      ((if style = .compressed then [','] else [',', ' '] : Text).intercalate line).filter keep
        = (([','] : Text).intercalate line).filter keep :=
    fun line => Text.filter_intercalate_congr hcomma rfl
  unfold Rule.selectors Rule.plainSelectors
  simp only
  split
  · apply Text.filter_intercalate_congr hbreak
    simp only [List.map_map]
    apply List.map_congr_left
    intro line _
    simp only [Function.comp_apply, List.filter_append, hindent, List.nil_append, hline]
  · rw [List.filter_append, hindent, List.nil_append]
    apply Text.filter_intercalate_congr hcomma
    simp only [List.map_map]
    exact List.map_congr_left fun line _ => hline line

/-- What a filter sees of a rule: the note, the selectors and what it sees of the
parts. -/
theorem filter_ruleLayout (note : Text) (depth : Int) (rule : Rule) (parts : List Part) :
    (rule.layout style note depth parts).filter keep
      = ((if style = .compressed then [] else note) ++ rule.plainSelectors
        ++ '{' :: parts.flatMap Part.plain ++ ['}']).filter keep := by
  have hselectors : (rule.selectors style depth).filter keep = rule.plainSelectors.filter keep :=
    filter_selectors hblank depth rule
  have hchildren := filter_childTexts hblank hsemicolon (Rule.childDepth style depth) parts
  rw [filter_braces, List.filter_append, ← hselectors, ← hchildren]
  by_cases hstyle : style = .compressed
  · subst hstyle
    have hjoined : ([';'] : Text).filter keep = [] := by simp [hsemicolon rfl]
    have htrimmed : ∀ t : Text, (Text.dropEndWhile (· == ';') t).filter keep = t.filter keep := by
      intro t
      apply Text.filter_dropEndWhile
      intro c hc
      rw [beq_iff_eq.1 hc, hsemicolon rfl]
    rw [Rule.layout, filter_braces, Text.filter_intercalate_dropped hjoined, List.flatMap_map]
    simp only [htrimmed]
    rfl
  · obtain ⟨gap, close, final, hgap, hclose, hfinal, hlayout⟩ :=
      Rule.layout_shape hstyle note depth rule parts
    have hgap : Spacing gap := by rcases hgap with rfl | rfl <;> decide
    have hfinal : Spacing final := by rcases hfinal with rfl | rfl <;> decide
    rw [hlayout, filter_gaps hblank (by decide) hclose hfinal, filter_braces, List.filter_append,
      List.filter_append, filter_spacing hblank hgap,
      Text.filter_intercalate_dropped (filter_spacing hblank hgap), if_neg hstyle]
    rfl

theorem filter_compressedOf (hstyle : style = .compressed) (parts : List Part) :
    (compressedOf parts).filter keep = (parts.flatMap Part.plain).filter keep := by
  subst hstyle
  have hpart := filter_partLayout hblank hsemicolon 1
  fun_induction compressedOf parts with
  | case1 => rfl
  | case2 part => rw [hpart, List.flatMap_singleton]
  | case3 d next parts ih =>
    have hd : (d.layout .compressed 1).filter keep = d.plain.filter keep := hpart (.declaration d)
    rw [List.filter_append, List.filter_cons, if_neg (by simp [hsemicolon rfl]), ih, hd]
    exact (List.filter_append ..).symm
  | case4 t next parts ih =>
    rw [List.filter_append, ih]
    exact (List.filter_append ..).symm

theorem filter_compactOf (hstyle : style = .compact) (depth : Int) (before : Before)
    (parts : List Part) :
    (compactOf depth before parts).filter keep = (parts.flatMap Part.plain).filter keep := by
  subst hstyle
  induction parts generalizing before with
  | nil => rfl
  | cons part parts ih =>
    obtain ⟨lead, text, place, next, hlead, htext, hcompact⟩ :=
      compactOf_cons depth before part parts
    have hpart : text.filter keep = part.plain.filter keep := by
      rw [← filter_partLayout hblank hsemicolon place part]
      rcases htext with rfl | rfl | rfl
      · rfl
      · exact Text.filter_strip hblank _
      · exact Text.filter_stripEnd hblank _
    rw [hcompact, List.filter_append, List.filter_append, filter_spacing hblank hlead, hpart, ih,
      List.flatMap_cons, List.filter_append, List.nil_append]

/-- What a filter sees of a block does not depend on the style. -/
theorem filter_layoutBlock (depth : Int) (d : Directive) (parts : List Part) :
    (d.layoutBlock style depth parts).filter keep
      = (d.value ++ '{' :: parts.flatMap Part.plain ++ ['}']).filter keep := by
  -- the parts are joined in three ways, and the filter sees the same of each
  have hbody : (blockBody style (depth + 1) parts).filter keep
      = (parts.flatMap Part.plain).filter keep := by
    cases style with
    | nested => exact filter_linesOf hblank hsemicolon (depth + 1) parts
    | expanded => exact filter_linesOf hblank hsemicolon (depth + 1) parts
    | compact => exact filter_compactOf hblank hsemicolon rfl (depth + 1) .nothing parts
    | compressed => exact filter_compressedOf hblank hsemicolon rfl parts
  obtain ⟨lead, gap, inner, close, final, hlead, hgap, hinner, hclose, hfinal, hlayout⟩ :=
    Directive.layoutBlock_shape style depth d parts
  have hfinal : Spacing final := by rcases hfinal with rfl | rfl <;> decide
  rw [hlayout, filter_gaps hblank hgap hclose hfinal, filter_braces, filter_braces,
    List.filter_append, Text.filter_stripEnd hblank, List.filter_append,
    filter_spacing hblank hlead, filter_spacing hblank hinner, hbody]
  rfl

end Filter

/-! ## What a filter sees of a tree -/

/-- A filter that drops what the styles differ in: every blank, and the semicolons
of the compressed style, in which there are no notes. -/
structure Blind (keep : Char → Bool) (style : Style) (annotate : Rule → Int → Text)
    (note : Rule → Text) : Prop where
  blank : ∀ c, Text.isBlank c = true → keep c = false
  semicolon : style = .compressed → keep ';' = false
  notes : ∀ r depth, (if style = .compressed then [] else annotate r depth).filter keep
    = (note r).filter keep

variable {keep : Char → Bool} {style : Style} {annotate : Rule → Int → Text} {note : Rule → Text}

mutual

/-- What a filter sees of the part of a node is what it sees of its plain text. -/
theorem filter_part (h : Blind keep style annotate note) (depth : Int) : ∀ node : Node,
    (node.part style annotate depth).plain.filter keep = (node.plain note).filter keep
  | .rule r children => by
    rw [Node.part, Part.plain, filter_ruleLayout h.blank h.semicolon, Node.plain, filter_braces,
      filter_braces, List.filter_append, List.filter_append, h.notes, filter_parts h _ children]
  | .declaration _ => rfl
  | .directive d => by
    rw [Node.part, Part.plain, Node.plain, List.append_assoc, List.filter_append,
      filter_spacing h.blank (Directive.spacing_indent _ _)]
    rfl
  | .block d children => by
    rw [Node.part]
    split
    · next hempty =>
      have hbraces : ([' ', '{', '}'] : Text).filter keep = (['{', '}'] : Text).filter keep :=
        List.filter_cons_of_neg (by simp [h.blank ' ' rfl])
      rw [List.isEmpty_iff.1 hempty, Node.plain, Node.plainAll, Part.plain, List.append_assoc,
        List.filter_append, filter_spacing h.blank (Directive.spacing_indent _ _), List.filter_append, hbraces,
        ← List.filter_append, List.append_assoc]
      rfl
    · rw [Part.plain, filter_layoutBlock h.blank h.semicolon, Node.plain, filter_braces,
        filter_braces, filter_parts h _ children]
  | .sheet _ _ => rfl

theorem filter_parts (h : Blind keep style annotate note) (depth : Int) : ∀ nodes : List Node,
    ((Node.parts style annotate depth nodes).flatMap Part.plain).filter keep
      = (Node.plainAll note nodes).filter keep
  | [] => rfl
  | node :: nodes => by
    rw [Node.parts, Node.plainAll]
    split
    · rw [List.flatMap_cons, List.filter_append, List.filter_append, filter_part h depth node,
        filter_parts h depth nodes]
    · exact filter_parts h depth nodes

end

/-- What a filter sees of a sheet is what it sees of its plain text. -/
theorem filter_layoutSheet (h : Blind keep style annotate note) (nodes : List Node) :
    (layoutSheet style annotate nodes).filter keep = (Node.plainAll note nodes).filter keep := by
  have hparts := filter_parts h 1 nodes
  have hbreak : (['\n'] : Text).filter keep = [] := filter_spacing h.blank (by decide)
  -- whichever way the parts are joined, and whether or not any text is left
  have hbody : ∀ body : Text, body.filter keep = (Node.plainAll note nodes).filter keep →
      (if (Text.stripEnd body).isEmpty then [] else Text.stripEnd body ++ ['\n'] : Text).filter keep
        = (Node.plainAll note nodes).filter keep := by
    intro body hbody
    rw [← Text.filter_stripEnd h.blank] at hbody
    split
    · next hempty => rw [← hbody, List.isEmpty_iff.1 hempty]
    · rw [List.filter_append, hbody, hbreak, List.append_nil]
  unfold layoutSheet
  apply hbody
  split
  · rw [← hparts, List.filter_flatMap, List.filter_flatMap]
    exact List.flatMap_congr fun part _ => filter_partLayout h.blank h.semicolon 1 part
  · rw [filter_linesOf h.blank h.semicolon, hparts]

/-! ## The flat trees of the styles -/

namespace Node

mutual

/-- The tree without what says where its rules are put. -/
def unplaced : Node → Node
  | rule r children => rule r.unplaced (unplacedAll children)
  | block d children => block d (unplacedAll children)
  | node => node

/-- The trees without what says where their rules are put. -/
def unplacedAll : List Node → List Node
  | [] => []
  | node :: nodes => unplaced node :: unplacedAll nodes

end

theorem unplacedAll_eq_map (nodes : List Node) : unplacedAll nodes = nodes.map unplaced := by
  induction nodes with
  | nil => rfl
  | cons node nodes ih => rw [unplacedAll, ih, List.map_cons]

theorem isRule_unplaced (node : Node) : node.unplaced.isRule = node.isRule := by
  cases node <;> simp [unplaced, isRule]

theorem visible_unplaced (node : Node) : node.unplaced.visible = node.visible := by
  cases node <;> simp [unplaced, visible]

theorem unplaced_unplacedTop (node : Node) : node.unplacedTop.unplaced = node.unplaced := by
  cases node <;> simp [unplacedTop, mapRule, unplaced, Rule.unplaced]

theorem map_unplaced_unplacedTop (nodes : List Node) :
    (nodes.map unplacedTop).map unplaced = nodes.map unplaced := by
  rw [List.map_map]
  exact List.map_congr_left fun node _ => unplaced_unplacedTop node

/-- Whether nodes stay in a rule or move behind it does not depend on where they
are put. -/
theorem map_unplaced_filter {p : Node → Bool} (hp : ∀ node : Node, p node.unplaced = p node)
    (nodes : List Node) : (nodes.filter p).map unplaced = (nodes.map unplaced).filter p := by
  rw [List.filter_map]
  congr 1
  exact List.filter_congr fun node _ => (hp node).symm

theorem flattenRule_unplaced (style : Style) (enclosed : Bool) (r : Rule) (children : List Node) :
    (flattenRule style enclosed r children).map unplaced
      = (if (children.map unplaced).filter isOwn = [] then []
          else [rule r.unplaced ((children.map unplaced).filter isOwn)])
        ++ (children.map unplaced).filter isRule := by
  have hown : ∀ node : Node, node.unplaced.isOwn = node.isOwn := by
    intro node
    rw [isOwn, isOwn, isRule_unplaced, visible_unplaced]
  rw [← map_unplaced_unplacedTop, unplacedTop_flattenRule, unplacedTop_splice, List.map_append,
    map_unplaced_unplacedTop, map_unplaced_filter isRule_unplaced, ← map_unplaced_filter hown]
  by_cases hempty : children.filter isOwn = []
  · rw [hempty]
    rfl
  · rw [if_neg hempty, if_neg (by rwa [List.map_eq_nil_iff]), List.map_singleton, unplaced,
      unplacedAll_eq_map]
    rfl

mutual

/-- The trees that take the place of a tree are the same in all styles, but for
where their rules are put. -/
theorem flatten_unplaced (style style' : Style) (enclosed : Bool) : ∀ node : Node,
    (flatten style enclosed node).map unplaced = (flatten style' enclosed node).map unplaced
  | rule r children => by
    rw [flatten, flatten, flattenRule_unplaced, flattenRule_unplaced,
      flattenAll_unplaced style style' true children]
  | declaration _ => rfl
  | directive _ => rfl
  | block d children => by
    rw [flatten, flatten, List.map_singleton, List.map_singleton, unplaced, unplaced,
      unplacedAll_eq_map, unplacedAll_eq_map, flattenAll_unplaced style style' false children]
  | sheet _ _ => rfl

theorem flattenAll_unplaced (style style' : Style) (enclosed : Bool) : ∀ nodes : List Node,
    (flattenAll style enclosed nodes).map unplaced = (flattenAll style' enclosed nodes).map unplaced
  | [] => rfl
  | node :: nodes => by
    rw [flattenAll, flattenAll, List.map_append, List.map_append,
      flatten_unplaced style style' enclosed node, flattenAll_unplaced style style' enclosed nodes]

end

mutual

/-- Where rules are put has no plain text. -/
theorem plain_unplaced {note : Rule → Text} (hnote : ∀ r : Rule, note r.unplaced = note r) :
    ∀ node : Node, node.unplaced.plain note = node.plain note
  | rule r children => by
    rw [unplaced, plain, plain, hnote, plainAll_unplaced hnote children]
    rfl
  | declaration _ => rfl
  | directive _ => rfl
  | block d children => by rw [unplaced, plain, plain, plainAll_unplaced hnote children]
  | sheet _ _ => rfl

theorem plainAll_unplaced {note : Rule → Text} (hnote : ∀ r : Rule, note r.unplaced = note r) :
    ∀ nodes : List Node, plainAll note (unplacedAll nodes) = plainAll note nodes
  | [] => rfl
  | node :: nodes => by
    rw [unplacedAll, plainAll, plainAll, visible_unplaced, plain_unplaced hnote node,
      plainAll_unplaced hnote nodes]

end

end Node

/-! ## All styles -/

/-- The character is not blank. -/
def Text.isInk (c : Char) : Bool :=
  !isBlank c

/-- The character is neither blank nor a semicolon. -/
def Text.isMeant (c : Char) : Bool :=
  !isBlank c && c != ';'

/-- A note says nothing about where its rule is put. -/
theorem annotate_unplaced (options : Options) (r : Rule) (depth : Int) :
    options.annotate r.unplaced depth = options.annotate r depth := by
  unfold Options.annotate
  cases options.note <;> rfl

/-- Of a note, only the indentation depends on the depth. -/
theorem filter_annotate {keep : Char → Bool} (hblank : ∀ c, Text.isBlank c = true → keep c = false)
    (options : Options) (r : Rule) (depth depth' : Int) :
    (options.annotate r depth).filter keep = (options.annotate r depth').filter keep := by
  unfold Options.annotate
  cases options.note with
  | off => rfl
  | comment =>
    simp only [SourceNote.commentOf, List.filter_append, Text.filter_indent hblank]
  | structured => rfl

theorem blind_isInk {options : Options} {style : Style} (hstyle : style ≠ .compressed) :
    Blind Text.isInk style options.annotate fun r => options.annotate r 1 where
  blank c hc := by rw [Text.isInk, hc]; rfl
  semicolon h := absurd h hstyle
  notes r depth := by
    rw [if_neg hstyle]
    exact filter_annotate (fun c hc => by rw [Text.isInk, hc]; rfl) options r depth 1

theorem blind_isMeant (style : Style) : Blind Text.isMeant style SourceNote.silent fun _ => [] where
  blank c hc := by rw [Text.isMeant, hc]; rfl
  semicolon _ := rfl
  notes r depth := by split <;> rfl

/-- Two styles that a filter cannot tell apart on any tree, it cannot tell apart on
the flat trees of the two styles either. -/
theorem filter_layoutSheet_flat {keep : Char → Bool} {style style' : Style}
    {annotate : Rule → Int → Text} {note : Rule → Text} (h : Blind keep style annotate note)
    (h' : Blind keep style' annotate note) (hnote : ∀ r : Rule, note r.unplaced = note r)
    (nodes : List Node) :
    (layoutSheet style annotate (Node.flattenAll style false nodes)).filter keep
      = (layoutSheet style' annotate (Node.flattenAll style' false nodes)).filter keep := by
  have hplain : Node.plainAll note (Node.flattenAll style false nodes)
      = Node.plainAll note (Node.flattenAll style' false nodes) := by
    rw [← Node.plainAll_unplaced hnote, Node.unplacedAll_eq_map,
      Node.flattenAll_unplaced style style', ← Node.unplacedAll_eq_map,
      Node.plainAll_unplaced hnote]
  rw [filter_layoutSheet h, filter_layoutSheet h', hplain]

/-- **The styles differ in layout only.**  Either a sheet fails to compile with the
same error in every style and with every kind of note, or it has a text in each.
Then, without notes, the four texts are the same but for blanks and semicolons,
and with any notes those of the nested, the expanded and the compact style are the
same but for blanks. -/
theorem toCss_styles (options : Options) (sheet : Sheet) :
    (∃ e, ∀ style note, sheet.toCss { options with style, note } = .error e)
    ∨ ∃ text : Style → SourceNote → Text,
      (∀ style note, sheet.toCss { options with style, note } = .ok (text style note))
      ∧ (∀ style style', (text style .off).filter Text.isMeant
        = (text style' .off).filter Text.isMeant)
      ∧ (∀ note, (text .nested note).filter Text.isInk = (text .expanded note).filter Text.isInk
        ∧ (text .expanded note).filter Text.isInk = (text .compact note).filter Text.isInk) := by
  cases hresolved : sheet.resolved options.environment with
  | error e =>
    refine Or.inl ⟨e, fun style note => ?_⟩
    rw [Sheet.toCss_eq, hresolved]
    rfl
  | ok nodes =>
    refine Or.inr ⟨fun style note => layoutSheet style { options with style, note }.annotate
      (Node.flattenAll style false nodes), fun style note => ?_, fun style style' => ?_,
      fun note => ?_⟩
    · rw [Sheet.toCss_eq, hresolved]
      rfl
    · -- no style adds or leaves out what is meant
      exact filter_layoutSheet_flat (blind_isMeant style) (blind_isMeant style') (fun _ => rfl) nodes
    · -- the notes do not depend on the style
      have hpair : ∀ style style' : Style, style ≠ .compressed → style' ≠ .compressed →
          (layoutSheet style { options with style, note }.annotate
            (Node.flattenAll style false nodes)).filter Text.isInk
          = (layoutSheet style' { options with style := style', note }.annotate
            (Node.flattenAll style' false nodes)).filter Text.isInk := by
        intro style style' hstyle hstyle'
        have hsame : { options with style, note }.annotate
            = { options with style := style', note }.annotate := by
          cases note <;> rfl
        rw [hsame]
        exact filter_layoutSheet_flat (blind_isInk hstyle) (blind_isInk hstyle')
          (fun r => annotate_unplaced _ r 1) nodes
      exact ⟨hpair _ _ nofun nofun, hpair _ _ nofun nofun⟩

end NestedSheet
