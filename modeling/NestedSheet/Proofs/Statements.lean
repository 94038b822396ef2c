import NestedSheet.Layout
import NestedSheet.Proofs.Declarations
import NestedSheet.Proofs.Positions
import NestedSheet.Proofs.SelectorText

/-!
# Reading statements back

A declaration or a directive that ends without a block, and what stands before a
block, are read back from the components that spell them, wherever they stand in a
source.  What is read says the same as what was written (`Node.IsReadBack`): the
same names, values and marks, and selectors that are read as those of the rule.

Main results:

* `Statement.read` — statements without a block.
* `Heading.read` — what stands before a block.
-/

namespace NestedSheet

open Component

/-! ## What is read back -/

/-- The selectors of a rule by the lines that a style writes them on. -/
def Style.lines (style : Style) (resolved : Selector.Resolved) : List (List Text) :=
  if style.multiline then resolved else [resolved.flatten]

/-- A rule that was read has the selectors of the one that was written: its lines are
read as all of them, in order and each as plain text, and the lines are those that
the style writes. -/
def Rule.IsReadBack (style : Style) (rule read : Rule) : Prop :=
  read.lines.flatMap Selector.parse
      = (rule.resolved.getD []).flatten.map (fun t => [.literal t])
    ∧ read.lines.map Selector.parse
      = (style.lines (rule.resolved.getD [])).map fun line => line.map fun t => [.literal t]

namespace Node

mutual

/-- The second tree, which was read, says the same as the first one, which was
written. -/
def IsReadBack (style : Style) : Node → Node → Prop
  | rule r children, rule r' children' =>
    r.IsReadBack style r' ∧ AreReadBack style children children'
  | declaration d, declaration d' =>
    d'.name = d.name ∧ d'.value = d.value ∧ d'.important = d.important
  | directive d, directive d' => d'.value = d.value
  | block d children, block d' children' =>
    d'.value = d.value ∧ AreReadBack style children children'
  | _, _ => False

/-- As many trees in the same order, each of which says the same. -/
def AreReadBack (style : Style) : List Node → List Node → Prop
  | [], [] => True
  | node :: nodes, node' :: nodes' => IsReadBack style node node' ∧ AreReadBack style nodes nodes'
  | _, _ => False

end

end Node

theorem Style.flatten_lines (style : Style) (resolved : Selector.Resolved) :
    (style.lines resolved).flatten = resolved.flatten := by
  unfold Style.lines
  split
  · rfl
  · simp

theorem Style.isPhraseLines_lines (style : Style) {resolved : Selector.Resolved}
    (h : isPhraseLines resolved = true) : isPhraseLines (style.lines resolved) = true := by
  unfold Style.lines
  split
  · exact h
  · -- the one line has the phrases of all, and there is at least one
    obtain ⟨hne, hlines⟩ := isPhraseLines_iff.1 h
    refine isPhraseLines_iff.2 ⟨nofun, ?_⟩
    rw [List.forall_mem_singleton]
    constructor
    · obtain ⟨line, lines, rfl⟩ := List.exists_cons_of_ne_nil hne
      have hline := (hlines line List.mem_cons_self).1
      simp [hline]
    · intro t ht
      obtain ⟨line, hline, ht⟩ := List.mem_flatten.1 ht
      exact (hlines line hline).2 t ht

/-- A rule with the lines of a style has the selectors of the rule. -/
theorem Rule.isReadBack_of_lines {style : Style} {rule read : Rule}
    {resolved : Selector.Resolved} (hresolved : rule.resolved = some resolved)
    (h : read.lines.map Selector.parse
      = (style.lines resolved).map fun line => line.map fun t => [.literal t]) :
    rule.IsReadBack style read := by
  rw [Rule.IsReadBack, hresolved]
  refine ⟨?_, h⟩
  rw [List.flatMap_def, h, ← List.map_flatten, Style.flatten_lines]
  rfl

/-! ## Statements and headings -/

/-- The text of a statement without a block, without the semicolon. -/
inductive Statement : Node → Text → Prop
  | declaration {d : Declaration} {gap : Text} (hname : Text.isPlainWord d.name = true)
    (hvalue : Text.isPhrase d.value = true) (hgap : Spacing gap) :
    Statement (.declaration d) (d.spelling gap)
  | directive {d : Directive} (hvalue : Text.isAtPhrase d.value = true) :
    Statement (.directive d) d.value

/-- The text before a block in a style. -/
inductive Heading (style : Style) : Prelude → Text → Prop
  | rule {r : Rule} {resolved : Selector.Resolved} {gap : Text} (depth : Int)
    (hresolved : r.resolved = some resolved) (hlines : isPhraseLines resolved = true)
    (hgap : gap = [] ∨ gap = [' ']) :
    Heading style (.rule r) (linesText gap depth (style.lines resolved))
  | directive {d : Directive} (hvalue : Text.isAtPhrase d.value = true) :
    Heading style (.directive d) d.value

namespace Text

theorem isWritten_atPhrase {t : Text} (h : isAtPhrase t = true) : ∀ c ∈ t, isWritten c = true := by
  obtain ⟨phrase, rfl, hphrase⟩ := exists_phrase h
  exact List.forall_mem_cons.2 ⟨rfl, isWritten_phrase hphrase⟩

theorem newline_not_mem_atPhrase {t : Text} (h : isAtPhrase t = true) : '\n' ∉ t := by
  obtain ⟨phrase, rfl, hphrase⟩ := exists_phrase h
  rw [List.mem_cons, not_or]
  refine ⟨by decide, fun hmem => ?_⟩
  rcases mem_phrase hphrase hmem with hlower | hspace
  · cases hlower
  · cases hspace

end Text

theorem Statement.trimmed {node : Node} {t : Text} (h : Statement node t) : Text.Trimmed t := by
  cases h with
  | @declaration d gap hname hvalue hgap =>
    have hplain := (Text.trimmed_of_isPlainWord hname).append (':' :: gap)
      (Text.trimmed_of_isPhrase hvalue)
    rw [Declaration.spelling]
    split
    · rw [important_eq]
      exact hplain.append [' '] ⟨rfl, rfl⟩
    · rw [List.append_nil]
      exact hplain
  | directive hvalue => exact Text.trimmed_of_isAtPhrase hvalue

/-- A statement ends with a letter. -/
theorem Statement.exists_last {node : Node} {t : Text} (h : Statement node t) :
    ∃ init c, t = init ++ [c] ∧ c.isLower = true := by
  cases h with
  | @declaration d gap hname hvalue hgap =>
    rw [Declaration.spelling]
    split
    · have hlast : " !important".toList = " !importan".toList ++ ['t'] := rfl
      rw [hlast, ← List.append_assoc]
      exact ⟨_, 't', rfl, rfl⟩
    · obtain ⟨-, init, c, hlast, hc⟩ := Text.isPhrase_ends hvalue
      refine ⟨d.name ++ ':' :: gap ++ init, c, ?_, hc⟩
      rw [List.append_nil, hlast, List.append_assoc, List.append_assoc, List.append_assoc]
  | directive hvalue =>
    obtain ⟨phrase, hphrase, hvalue⟩ := Text.exists_phrase hvalue
    obtain ⟨-, init, c, rfl, hc⟩ := Text.isPhrase_ends hvalue
    exact ⟨'@' :: init, c, hphrase, hc⟩

theorem Statement.isWritten {node : Node} {t : Text} (h : Statement node t) :
    ∀ c ∈ t, Text.isWritten c = true := by
  cases h with
  | @declaration d gap hname hvalue hgap =>
    have hmark : ∀ c ∈ (if d.important then " !important".toList else [] : Text),
        Text.isWritten c = true := by
      cases d.important with
      | true => exact List.all_eq_true.1 rfl
      | false => exact nofun
    simp only [Declaration.spelling, List.forall_mem_append, List.forall_mem_cons]
    refine ⟨⟨⟨?_, rfl, Text.isWritten_spacing hgap⟩, Text.isWritten_phrase hvalue⟩, hmark⟩
    exact fun c hc => Text.isWritten_of_isLower ((Text.isPlainWord_iff.1 hname).2 c hc)
  | directive hvalue => exact Text.isWritten_atPhrase hvalue

theorem Heading.trimmed {style : Style} {prelude : Prelude} {t : Text} (h : Heading style prelude t) :
    Text.Trimmed t := by
  cases h with
  | rule depth hresolved hlines hgap => exact trimmed_linesText (style.isPhraseLines_lines hlines)
  | directive hvalue => exact Text.trimmed_of_isAtPhrase hvalue

theorem Heading.isWritten {style : Style} {prelude : Prelude} {t : Text}
    (h : Heading style prelude t) : ∀ c ∈ t, Text.isWritten c = true := by
  cases h with
  | rule depth hresolved hlines hgap =>
    refine isWritten_linesText (style.isPhraseLines_lines hlines) ?_
    rcases hgap with rfl | rfl <;> decide
  | directive hvalue => exact Text.isWritten_atPhrase hvalue

/-! ## The text of components in a source -/

section Source

variable {path : Option Text} {full pre t gap rest : Text} {components : List Component}

/-- The text between the first component and the end of the gap behind them, without
the gap. -/
theorem textOf_slice (h : (Source.ofText path full).text = pre ++ (t ++ gap) ++ rest)
    (htrimmed : Text.Trimmed t) (hwritten : ∀ c ∈ t, Text.isWritten c = true) (hgap : Spacing gap)
    (hposition : components.head?.map Component.position = some (Position.behind pre)) :
    (Source.ofText path full).textOf components (some (Position.behind (pre ++ (t ++ gap))))
      = t := by
  cases components with
  | nil => cases hposition
  | cons first more =>
    -- the slice is the text with the gap behind it, in which nothing is a comment
    have hfirst : first.position = Position.behind pre := Option.some.inj hposition
    have hcomments : removeComments (t ++ gap) = t ++ gap :=
      removeComments_written (List.forall_mem_append.2 ⟨hwritten, Text.isWritten_spacing hgap⟩)
    have hstrip := @Text.Trimmed.strip_append [] t gap htrimmed nofun hgap.isBlank
    rw [Source.textOf, hfirst, Source.slice_after h, hcomments]
    exact hstrip

/-- The value of a directive whose text is on one line is this text. -/
theorem directiveValue_eq {source : Source} {stop : Option Position}
    (h : source.textOf components stop = t) (htrimmed : Text.Trimmed t) (hnewline : '\n' ∉ t) :
    source.directiveValue components stop = t := by
  rw [Source.directiveValue, h, strippedLines_single hnewline htrimmed.strip_eq
    htrimmed.ne_nil, List.intercalate_singleton]

/-- An at sign and a phrase are spelled by components that start with an at-keyword
and that are written as they stand. -/
theorem exists_directive (h : Text.isAtPhrase t = true) (p : Position) :
    ∃ first more, Spelled p t (first :: more) ∧ first.isAtKeyword = true
      ∧ printAll (first :: more) = t := by
  obtain ⟨phrase, rfl, hphrase⟩ := Text.exists_phrase h
  obtain ⟨word, words, hword, hwords, rfl⟩ := Text.exists_words hphrase
  refine ⟨_, _, (Spelled.atWord hword p).spaced hwords, rfl, ?_⟩
  have hprint := @printAll_phrase (.leaf p (.atKeyword word)) rfl words hwords {}
    (p.after ('@' :: word)) {} [] []
  rw [print_atWord hword] at hprint
  simpa [spaceComponents] using hprint

/-- Lines of phrases are spelled by components that do not start with an at-keyword. -/
theorem isSpelled_linesText (depth : Int) {lines : List (List Text)}
    (hlines : isPhraseLines lines = true) (hgap : Spacing gap) :
    IsSpelled (linesText gap depth lines) := by
  obtain ⟨hne, hlines⟩ := isPhraseLines_iff.1 hlines
  refine isSpelled_intercalate (Spacing.cons (Or.inr rfl) (Spacing.indent depth))
    (by simpa using hne) (List.forall_mem_map.2 fun line hline => ?_)
  obtain ⟨hline, hphrases⟩ := hlines line hline
  exact isSpelled_intercalate hgap hline fun t ht => isSpelled_phrase (hphrases t ht)

/-- A statement is read back from the components that spell it in a source, whether
a semicolon ends it or nothing does. -/
theorem Statement.read {node : Node} (h : Statement node t) (style : Style)
    (htext : (Source.ofText path full).text = pre ++ t ++ rest) :
    ∃ components, Spelled (Position.behind pre) t components
      ∧ ∀ stop, (stop = none ∨ stop = some (Position.behind (pre ++ t))) →
        ∃ node', node.IsReadBack style node' ∧ ∀ pending, Component.strip pending = components →
          readStatement (Source.ofText path full) pending stop = .ok [node'] := by
  have htrimmed := h.trimmed
  have hwritten := h.isWritten
  cases h with
  | @declaration d gap hname hvalue hgap =>
    obtain ⟨components, hspelled, hkeyword, parts, hread, hparts⟩ :=
      exists_declaration hname hvalue hgap (Position.behind pre)
    refine ⟨components, hspelled, fun stop _ => ?_⟩
    obtain ⟨first, more, rfl⟩ := List.exists_cons_of_ne_nil hspelled.ne_nil
    have hkeyword : first.isAtKeyword = false := hkeyword
    refine ⟨.declaration ⟨parts.name, Text.strip (printAll parts.value), parts.important,
      (Source.ofText path full).originOf first⟩, ?_, fun pending hpending => ?_⟩
    · rw [Node.IsReadBack]
      exact hparts
    · exact readStatement_declaration _ hpending hkeyword hread _
  | @directive d hvalue =>
    obtain ⟨first, more, hspelled, hkeyword, hprint⟩ :=
      exists_directive hvalue (Position.behind pre)
    refine ⟨first :: more, hspelled, fun stop hstop => ?_⟩
    -- without a semicolon the value is written anew, and with one it is cut out
    have htextOf : (Source.ofText path full).textOf (first :: more) stop = d.value := by
      rcases hstop with rfl | rfl
      · show Text.strip (removeComments (printAll (first :: more))) = d.value
        rw [hprint, removeComments_written hwritten, htrimmed.strip_eq]
      · have hslice := @textOf_slice path full pre d.value [] rest (first :: more)
          (by rwa [List.append_nil]) htrimmed hwritten nofun hspelled.position
        rwa [List.append_nil] at hslice
    refine ⟨.directive ⟨d.value, (Source.ofText path full).originOf first⟩, ?_,
      fun pending hpending => ?_⟩
    · rw [Node.IsReadBack]
    · rw [readStatement_directive _ hpending hkeyword,
        directiveValue_eq htextOf htrimmed (Text.newline_not_mem_atPhrase hvalue)]

/-- What stands before a block is read back from the components that spell it. -/
theorem Heading.read {style : Style} {prelude : Prelude} (h : Heading style prelude t)
    (hgap : Spacing gap)
    (htext : (Source.ofText path full).text = pre ++ (t ++ gap) ++ rest) :
    ∃ components, Spelled (Position.behind pre) t components
      ∧ ∃ prelude' : Prelude,
        (∀ children children', Node.AreReadBack style children children' →
          (prelude.toNode children).IsReadBack style (prelude'.toNode children'))
        ∧ ∀ pending, Component.strip pending = components →
          readPrelude (Source.ofText path full) pending (Position.behind (pre ++ (t ++ gap)))
            = .ok prelude' := by
  have htrimmed := h.trimmed
  have hwritten := h.isWritten
  have hslice : ∀ components : List Component,
      Spelled (Position.behind pre) t components →
      (Source.ofText path full).textOf components (some (Position.behind (pre ++ (t ++ gap))))
        = t :=
    fun components hspelled => textOf_slice htext htrimmed hwritten hgap hspelled.position
  cases h with
  | @rule r resolved comma depth hresolved hlines hcomma =>
    -- the lines are those that the style writes, which may be one for all
    have hlines := style.isPhraseLines_lines hlines
    have hparse := @map_parse_selectorLines comma depth _ hlines hcomma
    have hspacing : Spacing comma := by rcases hcomma with rfl | rfl <;> decide
    obtain ⟨components, hspelled, hkeyword⟩ :=
      isSpelled_linesText depth hlines hspacing (Position.behind pre)
    obtain ⟨first, more, rfl⟩ := List.exists_cons_of_ne_nil hspelled.ne_nil
    have hkeyword : first.isAtKeyword = false := hkeyword
    refine ⟨first :: more, hspelled, .rule {
        lines := selectorLines (linesText comma depth (style.lines resolved))
        origin := (Source.ofText path full).originOf first },
      fun children children' hchildren => ?_, fun pending hpending => ?_⟩
    · rw [Prelude.toNode, Prelude.toNode, Node.IsReadBack]
      exact ⟨Rule.isReadBack_of_lines hresolved hparse, hchildren⟩
    · -- the text has at least one line, so the rule is not refused
      have hne : selectorLines (linesText comma depth (style.lines resolved)) ≠ [] := by
        intro hnil
        rw [hnil, List.map_nil, eq_comm, List.map_eq_nil_iff] at hparse
        exact (isPhraseLines_iff.1 hlines).1 hparse
      rw [← hslice _ hspelled] at hne
      rw [readPrelude_rule _ hpending hkeyword hne, hslice _ hspelled]
  | @directive d hvalue =>
    obtain ⟨first, more, hspelled, hkeyword, -⟩ :=
      exists_directive hvalue (Position.behind pre)
    refine ⟨first :: more, hspelled,
      .directive ⟨d.value, (Source.ofText path full).originOf first⟩,
      fun children children' hchildren => ?_, fun pending hpending => ?_⟩
    · rw [Prelude.toNode, Prelude.toNode, Node.IsReadBack]
      exact ⟨rfl, hchildren⟩
    · rw [readPrelude_directive _ hpending hkeyword,
        directiveValue_eq (hslice _ hspelled) htrimmed (Text.newline_not_mem_atPhrase hvalue)]

end Source

end NestedSheet
