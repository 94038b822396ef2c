import NestedSheet.Proofs.Chunks
import NestedSheet.Proofs.Passes

/-!
# What is written is read back

A sheet of words and phrases (`Node.isWordy`) is written, in every style, as a
content that says what its trees say, without the declarations that are not visible
(`Node.pruned`).  Reading the text therefore gives the trees back.

The text of a node depends on its children only through their parts, and so does
this: each part is what its tree contributes to a content (`Node.partOf`), whatever
the depth and the group it stands in.

Main results:

* `Rule.shown_layout`, `Directive.shown_layoutBlock` — rules and blocks as chunks.
* `content_layoutSheet` — the text of a sheet as a content.
* `read_render` — reading what was written.
-/

namespace NestedSheet

/-! ## Selectors as they are written -/

/-- What stands before every text stands before the first one and after every
separator. -/
theorem intercalate_lead (sep lead : Text) {texts : List Text} (hne : texts ≠ []) :
    sep.intercalate (texts.map fun t => lead ++ t) = lead ++ (sep ++ lead).intercalate texts := by
  induction texts with
  | nil => exact absurd rfl hne
  | cons t texts ih =>
    cases texts with
    | nil => simp
    | cons u texts =>
      have hstep := ih nofun
      rw [List.map_cons] at hstep
      rw [List.map_cons, List.map_cons, List.intercalate_cons_cons, hstep,
        List.intercalate_cons_cons]
      simp only [List.append_assoc]

/-- The gap after a comma of a style. -/
def Style.gap (style : Style) : Text :=
  if style = .compressed then [] else [' ']

theorem Style.gap_cases (style : Style) : style.gap = [] ∨ style.gap = [' '] := by
  cases style <;> decide

/-- The selectors of a rule are indented lines of phrases. -/
theorem Rule.selectors_eq (style : Style) {r : Rule} {resolved : Selector.Resolved}
    (hresolved : r.resolved = some resolved) (hlines : isPhraseLines resolved = true)
    (depth : Int) :
    r.selectors style depth
      = Text.indent depth ++ linesText style.gap depth (style.lines resolved) := by
  obtain ⟨hne, hlines⟩ := isPhraseLines_iff.1 hlines
  have hcomma : (if style = .compressed then [','] else [',', ' '] : Text) = ',' :: style.gap := by
    unfold Style.gap
    split <;> rfl
  rw [Rule.selectors, hresolved, linesText, Style.lines]
  simp only [hcomma, Option.getD_some]
  split
  · exact intercalate_lead [',', '\n'] (Text.indent depth) (by simpa using hne)
  · rw [intercalate_flatten _ fun line hline => (hlines line hline).1, List.map_singleton,
      List.intercalate_singleton]

/-! ## Rules and blocks -/

section Shown

variable {style : Style} {children : List Node} {parts : List Part}

/-- A rule is written as a block with its selectors before it. -/
theorem Rule.shown_layout {r : Rule} {resolved : Selector.Resolved}
    (hresolved : r.resolved = some resolved) (hlines : isPhraseLines resolved = true) (depth : Int)
    (hparts : List.Forall₂ (PartOf style) children parts) :
    Shown style (.rule r children) (r.layout style [] depth parts) := by
  have hheading : Heading style (.rule r) _ :=
    Heading.rule depth hresolved hlines style.gap_cases
  have hselectors := r.selectors_eq style hresolved hlines depth
  by_cases hstyle : style = .compressed
  · subst hstyle
    -- semicolons stand between the children only
    have hinside := content_childTexts_compressed (Rule.childDepth .compressed depth) hparts
    refine ⟨Text.indent depth, _, [], Spacing.indent depth,
      Chunk.block hheading (show Spacing [] from nofun) hinside, nofun, ?_⟩
    rw [Rule.layout, hselectors]
    simp
  · obtain ⟨gap, close, final, hgap, hclose, hfinal, hlayout⟩ :=
      Rule.layout_shape hstyle [] depth r parts
    have hgap : Spacing gap := by rcases hgap with rfl | rfl <;> decide
    have hfinal : Spacing final := by rcases hfinal with rfl | rfl <;> decide
    -- the spaces before the closing brace belong to the content
    have hinside := (content_childTexts hstyle (Rule.childDepth style depth) hgap hparts).trail hclose
    refine ⟨Text.indent depth, _, final, Spacing.indent depth,
      Chunk.block hheading (show Spacing [' '] by decide) hinside, hfinal, ?_⟩
    rw [hlayout, hselectors]
    simp

/-- A directive with a block is written as a block with its value before it. -/
theorem Directive.shown_layoutBlock {d : Directive} (hvalue : Text.isAtPhrase d.value = true)
    (depth : Int) (hparts : List.Forall₂ (PartOf style) children parts) :
    Shown style (.block d children) (d.layoutBlock style depth parts) := by
  obtain ⟨lead, gap, inner, close, final, hlead, hgap, hinner, hclose, hfinal, hlayout⟩ :=
    Directive.layoutBlock_shape style depth d parts
  have hfinal : Spacing final := by rcases hfinal with rfl | rfl <;> decide
  have hinside := (((content_blockBody (depth + 1) hparts).lead hinner).stripEnd).trail hclose
  refine ⟨lead, _, final, hlead, Chunk.block (Heading.directive hvalue) hgap hinside, hfinal, ?_⟩
  rw [hlayout]
  simp

end Shown

/-! ## Trees of words -/

namespace Node

mutual

/-- The tree without the declarations that are not visible. -/
def pruned : Node → Node
  | rule r children => rule r (prunedAll children)
  | declaration d => declaration d
  | directive d => directive d
  | block d children => block d (prunedAll children)
  | sheet path children => sheet path children

/-- The visible ones among some trees, each without the declarations that are not
visible. -/
def prunedAll : List Node → List Node
  | [] => []
  | node :: nodes =>
    if node.visible then pruned node :: prunedAll nodes else prunedAll nodes

end

mutual

/-- A tree of words: every rule has lines of phrases for its selectors, the names of
declarations are words and their values are phrases, unless they are empty, and the
values of directives are phrases after an at sign. -/
def isWordy : Node → Bool
  | rule r children => r.resolved.any isPhraseLines && areWordy children
  | declaration d =>
    Text.isPlainWord d.name && (d.value.isEmpty || Text.isPhrase d.value)
  | directive d => Text.isAtPhrase d.value
  | block d children => Text.isAtPhrase d.value && areWordy children
  | sheet _ _ => false

/-- Trees of words. -/
def areWordy : List Node → Bool
  | [] => true
  | node :: nodes => isWordy node && areWordy nodes

end

/-- Nothing becomes a declaration that was none. -/
theorem isDeclaration_prunedAll {nodes : List Node}
    (h : ∀ node ∈ nodes, node.isDeclaration = false) :
    ∀ node ∈ prunedAll nodes, node.isDeclaration = false := by
  induction nodes with
  | nil =>
    rw [prunedAll]
    exact nofun
  | cons node nodes ih =>
    obtain ⟨hnode, hrest⟩ := List.forall_mem_cons.1 h
    rw [prunedAll]
    split
    · refine List.forall_mem_cons.2 ⟨?_, ih hrest⟩
      cases node with
      | declaration d => cases hnode
      | _ =>
        rw [pruned]
        rfl
    · exact ih hrest

mutual

/-- A tree of words can be written. -/
theorem writable_of_isWordy : ∀ {node : Node}, isWordy node = true →
    first? isUnwritable node = none
  | rule r children, h => by
    rw [isWordy, Bool.and_eq_true] at h
    rw [first?_rule_eq_none, isUnwritable]
    refine ⟨?_, writable_of_areWordy h.2⟩
    cases hresolved : r.resolved with
    | none =>
      rw [hresolved] at h
      cases h.1
    | some resolved => rfl
  | declaration _, _ => rfl
  | directive _, _ => rfl
  | block d children, h => by
    rw [isWordy, Bool.and_eq_true] at h
    rw [first?_block_eq_none]
    exact ⟨rfl, writable_of_areWordy h.2⟩
  | sheet _ _, h => by
    rw [isWordy] at h
    cases h

theorem writable_of_areWordy : ∀ {nodes : List Node}, areWordy nodes = true →
    firstOf? isUnwritable nodes = none
  | [], _ => rfl
  | node :: nodes, h => by
    rw [areWordy, Bool.and_eq_true] at h
    rw [firstOf?, writable_of_isWordy h.1]
    exact writable_of_areWordy h.2

end

mutual

/-- A visible tree of words contributes the text of a chunk, or a declaration. -/
theorem partOf (style : Style) (depth : Int) : ∀ {node : Node}, isWordy node = true →
    node.visible = true → PartOf style node.pruned (part style SourceNote.silent depth node)
  | rule r children, h, _ => by
    rw [isWordy, Bool.and_eq_true, Option.any_eq_true] at h
    obtain ⟨⟨resolved, hresolved, hlines⟩, hchildren⟩ := h
    rw [pruned, part]
    exact PartOf.text (Rule.shown_layout hresolved hlines _ (forall₂_parts style _ hchildren))
  | declaration d, h, hvisible => by
    rw [isWordy, Bool.and_eq_true, Bool.or_eq_true] at h
    obtain ⟨hname, hempty | hvalue⟩ := h
    · -- a declaration without a value is not visible
      rw [visible, hempty] at hvisible
      cases hvisible
    · rw [pruned, part]
      exact PartOf.declaration hname hvalue
  | directive d, h, _ => by
    rw [isWordy] at h
    rw [pruned, part, List.append_assoc]
    exact PartOf.text ⟨_, _, [], Directive.spacing_indent style depth,
      Chunk.statement (Statement.directive h), nofun, (List.append_nil _).symm⟩
  | block d children, h, _ => by
    rw [isWordy, Bool.and_eq_true] at h
    obtain ⟨hvalue, hchildren⟩ := h
    rw [pruned, part]
    split
    · next hempty =>
      -- a block without children is written in one piece
      have hgap : Spacing [' '] := by decide
      have hinside : Content style [] [] := Content.blank nofun
      rw [List.isEmpty_iff.1 hempty, prunedAll, List.append_assoc]
      exact PartOf.text ⟨_, _, [], Directive.spacing_indent style depth,
        Chunk.block (Heading.directive hvalue) hgap hinside, nofun, by simp⟩
    · exact PartOf.text (Directive.shown_layoutBlock hvalue depth (forall₂_parts style _ hchildren))
  | sheet _ _, h, _ => by
    rw [isWordy] at h
    cases h

/-- The parts of trees of words are those of their visible ones. -/
theorem forall₂_parts (style : Style) (depth : Int) : ∀ {nodes : List Node},
    areWordy nodes = true →
      List.Forall₂ (PartOf style) (prunedAll nodes) (parts style SourceNote.silent depth nodes)
  | [], _ => by
    rw [prunedAll, parts]
    exact List.Forall₂.nil
  | node :: nodes, h => by
    rw [areWordy, Bool.and_eq_true] at h
    rw [prunedAll, parts]
    split
    · next hvisible =>
      exact List.Forall₂.cons (partOf style depth h.1 hvisible) (forall₂_parts style depth h.2)
    · exact forall₂_parts style depth h.2

end

end Node

/-! ## Sheets -/

/-- The text of trees of words is a content that says what they say. -/
theorem content_layoutSheet (style : Style) {nodes : List Node}
    (hwordy : Node.areWordy nodes = true) (hroot : ∀ node ∈ nodes, node.isDeclaration = false) :
    Content style (Node.prunedAll nodes) (layoutSheet style SourceNote.silent nodes) := by
  have hparts := Node.forall₂_parts style 1 hwordy
  have hbreak : Spacing ['\n'] := by decide
  -- whichever way the parts are joined, and whether or not any text is left
  have hbody : ∀ body : Text, Content style (Node.prunedAll nodes) body →
      Content style (Node.prunedAll nodes)
        (if (Text.stripEnd body).isEmpty then [] else Text.stripEnd body ++ ['\n']) := by
    intro body hbody
    have hstripped := hbody.stripEnd
    split
    · next hempty => rwa [List.isEmpty_iff.1 hempty] at hstripped
    · exact hstripped.trail hbreak
  unfold layoutSheet
  apply hbody
  split
  · -- there are no declarations at the top, so every part is a text
    have hpruned := Node.isDeclaration_prunedAll hroot
    rw [List.flatMap_def]
    apply content_flatten
    rw [List.forall₂_map_right_iff]
    refine ((List.forall₂_and_left _ _).2 ⟨hpruned, hparts⟩).imp ?_
    rintro node part ⟨hnode, hpart⟩
    cases hpart with
    | declaration hname hvalue => cases hnode
    | text hshown => exact hshown
  · next hstyle => exact content_linesOf hstyle 1 hparts

/-- A text without carriage returns, form feeds and NUL is its own normal form. -/
theorem normalizeNewlines_written {t : Text} (h : ∀ c ∈ t, Text.isWritten c = true) :
    normalizeNewlines t = t := by
  refine normalizeNewlines_eq_self fun c hc => ?_
  have hreturn : c ≠ '\r' := Text.ne_of_isWritten (h c hc) (by decide)
  have hfeed : c ≠ '\x0c' := Text.ne_of_isWritten (h c hc) (by decide)
  have hnul : c ≠ '\x00' := Text.ne_of_isWritten (h c hc) (by decide)
  simp [isNormal, hreturn, hfeed, hnul]

theorem isDeclaration_readBack {style : Style} {node node' : Node}
    (h : node.IsReadBack style node') : node'.isDeclaration = node.isDeclaration := by
  cases node <;> cases node' <;> first | rfl | simp [Node.IsReadBack] at h

/-- No declaration was read at the top where none was written. -/
theorem refuseDeclarations_readBack {style : Style} : ∀ {nodes nodes' : List Node},
    Node.AreReadBack style nodes nodes' → (∀ node ∈ nodes, node.isDeclaration = false) →
      refuseDeclarations nodes' = .ok ()
  | [], [], _, _ => rfl
  | [], _ :: _, hback, _ => by simp [Node.AreReadBack] at hback
  | _ :: _, [], hback, _ => by simp [Node.AreReadBack] at hback
  | node :: nodes, node' :: nodes', hback, hroot => by
    rw [Node.AreReadBack] at hback
    obtain ⟨hnode, hrest⟩ := List.forall_mem_cons.1 hroot
    have hnext := refuseDeclarations_readBack hback.2 hrest
    rw [← isDeclaration_readBack hback.1] at hnode
    cases node' with
    | declaration d => cases hnode
    | _ => exact hnext

/-- **What is written is read back.**  A sheet of words, whatever the nesting of its
rules and directives, has a text in every style, and this text is read as the
visible trees of the sheet. -/
theorem read_render (options : Options) (hnote : options.note = .off) (path : Option Text)
    (sheet : Sheet) (hwordy : Node.areWordy sheet.children = true)
    (hroot : ∀ node ∈ sheet.children, node.isDeclaration = false) :
    ∃ text read, sheet.render options = .ok text ∧ Sheet.read path text = .ok read
      ∧ Node.AreReadBack options.style (Node.prunedAll sheet.children) read.children := by
  have hcontent := content_layoutSheet options.style hwordy hroot
  have hannotate : options.annotate = SourceNote.silent := by
    rw [Options.annotate, hnote]
  -- the text is a content of its own characters, so it is its own normal form
  generalize htext : layoutSheet options.style SourceNote.silent sheet.children = text at hcontent
  have hrender : sheet.render options = .ok text := by
    rw [Sheet.render, Node.render, Node.writable_of_areWordy hwordy, hannotate, htext]
    rfl
  have hsource : (Source.ofText path text).text = [] ++ text ++ [] := by
    rw [List.append_nil]
    exact normalizeNewlines_written hcontent.isWritten
  -- read as a whole, nothing stands before the content or behind it
  obtain ⟨components, nodes, hlexes, hread, hback⟩ := hcontent.read hsource rfl
  have hparse : Component.parse (Source.ofText path text).text = .ok components := by
    rw [hsource, List.append_nil]
    exact hlexes.parse
  have hpruned := Node.isDeclaration_prunedAll hroot
  have hrefused := refuseDeclarations_readBack hback hpruned
  exact ⟨text, ⟨path, nodes⟩, hrender,
    Sheet.read_eq_ok.2 ⟨components, nodes, hparse, hread, hrefused, rfl⟩, hback⟩

/-- A rule in a block, with an important declaration, one that is not visible and a
directive. -/
theorem read_render_block :
    ∃ text read,
      Sheet.render { style := .compressed } { children := [
        .block { value := "@media print".toList } [
          .rule { resolved := some [["a b".toList, ['c']], [['d']]] } [
            .declaration { name := ['e'], value := "f g".toList, important := true },
            .declaration { name := ['h'], value := [] },
            .directive { value := "@i".toList }]]] } = .ok text
      ∧ Sheet.read none text = .ok read
      ∧ Node.AreReadBack .compressed [
        .block { value := "@media print".toList } [
          .rule { resolved := some [["a b".toList, ['c']], [['d']]] } [
            .declaration { name := ['e'], value := "f g".toList, important := true },
            .directive { value := "@i".toList }]]] read.children :=
  read_render { style := .compressed } rfl none
    { children := [
      .block { value := "@media print".toList } [
        .rule { resolved := some [["a b".toList, ['c']], [['d']]] } [
          .declaration { name := ['e'], value := "f g".toList, important := true },
          .declaration { name := ['h'], value := [] },
          .directive { value := "@i".toList }]]] }
    (by decide) (by decide)

end NestedSheet
