import NestedSheet.Node.Same
import NestedSheet.Proofs.Listing

/-!
# Origins do not reach the text

What a sheet is compiled to depends on what its author wrote, and not on where the nodes
come from or on what an earlier run left in the rules.  A view of a tree leaves out the
origins and keeps of each rule only what a pass may look at: its lines and its depth at
first, then also how the lines were read, then its selectors, and whether it ends a
group at last.  Every pass commutes with the views before and after it, so each of these
fields is set before it is used.

The text shows no origins if no notes are asked for, so origins are left in the errors
only.

Main results:

* `prepareAll_view`, `resolveAll_view`, `flattenAll_view` — the passes under the views.
* `layoutSheet_view` — the text of a flat sheet does not show the origins.
* `viewOf_eq_of_sameAll` — trees that say the same are the same as written.
* `toCss_of_same` — they have the same text, or fail in the same way.
-/

namespace NestedSheet

/-! ## Views -/

/-- The rule as it was written. -/
def Rule.asWritten (rule : Rule) : Rule :=
  { lines := rule.lines, depth := rule.depth }

/-- The rule as it was written and read. -/
def Rule.asRead (rule : Rule) : Rule :=
  { rule.asWritten with parsed := rule.parsed }

/-- The rule with its selectors, before it is put into a group. -/
def Rule.asResolved (rule : Rule) : Rule :=
  { rule.asRead with resolved := rule.resolved }

/-- The rule as it is, but for its origin. -/
def Rule.asPlaced (rule : Rule) : Rule :=
  { rule.asResolved with groupEnd := rule.groupEnd }

/-- The declaration without its origin. -/
def Declaration.unlocated (d : Declaration) : Declaration :=
  { d with origin := {} }

/-- The directive without its origin. -/
def Directive.unlocated (d : Directive) : Directive :=
  { d with origin := {} }

/-- The error without its origin. -/
def CompileError.unlocated : CompileError → CompileError
  | undefined name _ => undefined name {}
  | unboundParent _ => unboundParent {}
  | unsupported cause => unsupported cause
  | notReady stage => notReady stage

@[simp] theorem CompileError.bareMessage_unlocated (e : CompileError) :
    e.unlocated.bareMessage = e.bareMessage := by
  cases e <;> rfl

namespace Node

mutual

/-- The tree without origins, and with a view of each rule; no stage goes into a
sheet. -/
def view (f : Rule → Rule) : Node → Node
  | rule r children => rule (f r) (viewOf f children)
  | declaration d => declaration d.unlocated
  | directive d => directive d.unlocated
  | block d children => block d.unlocated (viewOf f children)
  | sheet path children => sheet path children

/-- The trees without origins, and with a view of each rule. -/
def viewOf (f : Rule → Rule) : List Node → List Node
  | [] => []
  | node :: nodes => view f node :: viewOf f nodes

end

section View

variable (f : Rule → Rule)

theorem viewOf_eq_map (nodes : List Node) : viewOf f nodes = nodes.map (view f) := by
  induction nodes with
  | nil => rfl
  | cons node nodes ih => rw [viewOf, ih, List.map_cons]

@[simp] theorem isRule_view (node : Node) : (view f node).isRule = node.isRule := by
  cases node <;> rfl

@[simp] theorem visible_view (node : Node) : (view f node).visible = node.visible := by
  cases node <;> rfl

end View

end Node

/-! ## Outcomes -/

section Outcome

variable {α α' β β' : Type}

/-- The outcome of a pass, with its result seen through `f` and its error without the
origin. -/
def outcomeVia (f : α → β) : Except CompileError α → Except CompileError β
  | .ok result => .ok (f result)
  | .error e => .error e.unlocated

/-- Two steps are seen as the second one after the first one is seen. -/
theorem outcomeVia_bind {f : α → α'} {g : β → β'} {first : Except CompileError α}
    {second : α → Except CompileError β} {seen : α' → Except CompileError β'}
    (h : ∀ result, seen (f result) = outcomeVia g (second result)) :
    (do seen (← outcomeVia f first)) = outcomeVia g (do second (← first)) := by
  cases first with
  | error e => rfl
  | ok result => exact h result

/-- Outcomes that are seen to be the same are results that are seen to be the same, or
errors that differ in their origins only. -/
theorem outcomeVia_id_eq {outcome other : Except CompileError α}
    (h : outcomeVia id outcome = outcomeVia id other) :
    (∃ result, outcome = .ok result ∧ other = .ok result)
      ∨ ∃ e e', outcome = .error e ∧ other = .error e' ∧ e.unlocated = e'.unlocated := by
  cases outcome with
  | ok result =>
    cases other with
    | ok result' =>
      cases h
      exact Or.inl ⟨result, rfl, rfl⟩
    | error e' => cases h
  | error e =>
    cases other with
    | ok result' => cases h
    | error e' => exact Or.inr ⟨e, e', rfl, rfl, Except.error.inj h⟩

end Outcome

/-! ## Preparing -/

section Prepare

variable {env other : Environment}

/-- Interpolation uses only the values of the variables. -/
theorem Environment.interpolate_congr (h : ∀ name, env.get? name = other.get? name) (t : Text) :
    env.interpolate t = other.interpolate t := by
  have heval : Piece.eval env = Piece.eval other := by
    funext piece
    cases piece with
    | verbatim text => rfl
    | reference name => rw [Piece.eval, Piece.eval, h name]
  rw [Environment.interpolate, Environment.interpolate, heval]

theorem interpolateAt_view (h : ∀ name, env.get? name = other.get? name) (origin : Origin)
    (t : Text) :
    other.interpolateAt {} t = outcomeVia id (env.interpolateAt origin t) := by
  rw [Environment.interpolateAt, Environment.interpolateAt, Environment.interpolate_congr h]
  cases other.interpolate t <;> rfl

theorem mapM_interpolateAt_view (h : ∀ name, env.get? name = other.get? name) (origin : Origin)
    (texts : List Text) : texts.mapM (other.interpolateAt {})
      = outcomeVia id (texts.mapM (env.interpolateAt origin)) := by
  induction texts with
  | nil => rfl
  | cons t texts ih =>
    rw [List.mapM_cons, List.mapM_cons, interpolateAt_view h origin, ih]
    exact outcomeVia_bind fun _ => outcomeVia_bind fun _ => rfl

namespace Node

mutual

theorem prepare_view (h : ∀ name, env.get? name = other.get? name) : ∀ node : Node,
    prepare other (view Rule.asWritten node) = outcomeVia (view Rule.asRead) (prepare env node)
  | rule r children => by
    rw [view, prepare, prepare, prepareAll_view h children]
    show (do
      let lines ← r.lines.mapM (other.interpolateAt {})
      let children ← outcomeVia (viewOf Rule.asRead) (prepareAll env children)
      pure (rule { r.asWritten with parsed := some (lines.map Selector.parse) } children)) = _
    rw [mapM_interpolateAt_view h r.origin]
    exact outcomeVia_bind fun lines => outcomeVia_bind fun children => rfl
  | declaration d => by
    rw [view, prepare, prepare]
    show (do
      let value ← other.interpolateAt {} d.value
      pure (declaration { d.unlocated with value })) = _
    rw [interpolateAt_view h d.origin]
    exact outcomeVia_bind fun value => rfl
  | directive _ => rfl
  | block d children => by
    rw [view, prepare, prepare, prepareAll_view h children]
    exact outcomeVia_bind fun children => rfl
  | sheet _ _ => rfl

/-- Preparing looks at the lines of the rules and reads them. -/
theorem prepareAll_view (h : ∀ name, env.get? name = other.get? name) : ∀ nodes : List Node,
    prepareAll other (viewOf Rule.asWritten nodes)
      = outcomeVia (viewOf Rule.asRead) (prepareAll env nodes)
  | [] => rfl
  | node :: nodes => by
    rw [viewOf, prepareAll, prepareAll, prepare_view h node, prepareAll_view h nodes]
    exact outcomeVia_bind fun node => outcomeVia_bind fun nodes => rfl

end

end Node

end Prepare

/-! ## Resolving -/

theorem Rule.resolve_asRead (outer : Option Selector.Resolved) (r : Rule) :
    r.asRead.resolve outer = outcomeVia id (r.resolve outer) := by
  unfold Rule.resolve
  simp only [Rule.asRead]
  cases r.parsed with
  | some lines =>
    dsimp only
    cases Selector.resolve lines outer <;> rfl
  | none => rcases outer with _ | _ | ⟨line, lines⟩ <;> rfl

namespace Node

mutual

theorem resolve_view (outer : Option Selector.Resolved) : ∀ node : Node,
    resolve outer (view Rule.asRead node) = outcomeVia (view Rule.asResolved) (resolve outer node)
  | rule r children => by
    rw [view, resolve, resolve, Rule.resolve_asRead]
    refine outcomeVia_bind fun resolved => ?_
    rw [id, resolveAll_view (some resolved) children]
    exact outcomeVia_bind fun children => rfl
  | declaration _ => rfl
  | directive _ => rfl
  | block d children => by
    rw [view, resolve, resolve, resolveAll_view none children]
    exact outcomeVia_bind fun children => rfl
  | sheet _ _ => rfl

/-- Resolving looks at how the lines of the rules were read, and gives them their
selectors. -/
theorem resolveAll_view (outer : Option Selector.Resolved) : ∀ nodes : List Node,
    resolveAll outer (viewOf Rule.asRead nodes)
      = outcomeVia (viewOf Rule.asResolved) (resolveAll outer nodes)
  | [] => rfl
  | node :: nodes => by
    rw [viewOf, resolveAll, resolveAll, resolve_view outer node, resolveAll_view outer nodes]
    exact outcomeVia_bind fun node => outcomeVia_bind fun nodes => rfl

end

end Node

/-! ## Flattening -/

namespace Node

/-- A flat node without origins.  As long as the node stands in a rule, nothing is said
about whether it ends a group. -/
def viewFlat (enclosed : Bool) (node : Node) : Node :=
  if enclosed then (view Rule.asPlaced node).mapRule Rule.asResolved else view Rule.asPlaced node

@[simp] theorem isRule_viewFlat (enclosed : Bool) (node : Node) :
    (viewFlat enclosed node).isRule = node.isRule := by
  cases enclosed <;> simp [viewFlat]

@[simp] theorem isOwn_viewFlat (enclosed : Bool) (node : Node) :
    (viewFlat enclosed node).isOwn = node.isOwn := by
  cases enclosed <;> cases node <;> rfl

theorem viewFlat_of_isRule_eq_false {node : Node} (enclosed : Bool) (h : node.isRule = false) :
    viewFlat enclosed node = view Rule.asPlaced node := by
  cases node with
  | rule r children => cases h
  | _ => cases enclosed <;> rfl

/-- A group is ended whatever its rules said about it before. -/
theorem endGroup_view (nodes : List Node) :
    (endGroup nodes).map (viewFlat false) = endGroup (nodes.map (viewFlat true)) := by
  fun_induction endGroup nodes with
  | case1 => rfl
  | case2 last => cases last <;> rfl
  | case3 node next nodes ih =>
    rw [List.map_cons, ih]
    cases node <;> rfl

theorem splice_view (style : Style) (r : Rule) (children : List Node) :
    (splice style r children).map (viewFlat true)
      = splice style r.asResolved (children.map (viewFlat true)) := by
  -- what is the rule's own is no rule, so nothing is left out of it at the top
  have hown : viewOf Rule.asPlaced (children.filter isOwn)
      = (children.filter isOwn).map (viewFlat true) := by
    rw [viewOf_eq_map]
    refine List.map_congr_left fun node hnode => (viewFlat_of_isRule_eq_false true ?_).symm
    exact (isOwn_iff.1 (List.mem_filter.1 hnode).2).1
  have hdeepen : ∀ nodes : List Node, (nodes.map (mapRule Rule.deepen)).map (viewFlat true)
      = (nodes.map (viewFlat true)).map (mapRule Rule.deepen) := by
    intro nodes
    rw [List.map_map, List.map_map]
    refine List.map_congr_left fun node _ => ?_
    cases node <;> rfl
  unfold splice
  simp only [List.filter_map, Function.comp_def, isOwn_viewFlat, isRule_viewFlat, List.isEmpty_map]
  split
  · rfl
  · rw [List.map_cons]
    refine congrArg₂ List.cons (congrArg (rule r.asResolved) hown) ?_
    split
    · exact hdeepen _
    · rfl

mutual

theorem flatten_view (style : Style) (enclosed : Bool) : ∀ node : Node,
    (flatten style enclosed node).map (viewFlat enclosed)
      = flatten style enclosed (view Rule.asResolved node)
  | rule r children => by
    rw [view, flatten, flatten, ← flattenAll_view style true children]
    cases enclosed with
    | true => exact splice_view style r _
    | false =>
      -- the rules are those of the enclosed case, put into a group
      show (endGroup _).map _ = endGroup _
      rw [endGroup_view, splice_view]
  | declaration _ => by cases enclosed <;> rfl
  | directive _ => by cases enclosed <;> rfl
  | block d children => by
    -- the rules in the block are in groups already, wherever the block stands
    have hblock : viewOf Rule.asPlaced (flattenAll style false children)
        = flattenAll style false (viewOf Rule.asResolved children) := by
      rw [viewOf_eq_map, ← flattenAll_view style false children]
      rfl
    rw [view, flatten, flatten, ← hblock]
    exact congrArg (fun node => [node]) (viewFlat_of_isRule_eq_false enclosed rfl)
  | sheet _ _ => by cases enclosed <;> rfl

/-- Flattening looks at the rules with their selectors, and says anew which of them end a
group. -/
theorem flattenAll_view (style : Style) (enclosed : Bool) : ∀ nodes : List Node,
    (flattenAll style enclosed nodes).map (viewFlat enclosed)
      = flattenAll style enclosed (viewOf Rule.asResolved nodes)
  | [] => rfl
  | node :: nodes => by
    rw [viewOf, flattenAll, flattenAll, List.map_append, flatten_view style enclosed node,
      flattenAll_view style enclosed nodes]

end

end Node

/-! ## Layout -/

/-- The part without its origin. -/
def Part.unlocated : Part → Part
  | declaration d => declaration d.unlocated
  | text t => text t

section Layout

variable (style : Style) (depth : Int)

theorem Part.layout_unlocated (part : Part) :
    part.unlocated.layout style depth = part.layout style depth := by
  cases part <;> rfl

theorem linesOf_unlocated (parts : List Part) :
    linesOf style depth (parts.map Part.unlocated) = linesOf style depth parts := by
  simp only [linesOf, List.flatMap_map, Part.layout_unlocated]

theorem Rule.childTexts_unlocated (parts : List Part) :
    Rule.childTexts style depth (parts.map Part.unlocated) = Rule.childTexts style depth parts := by
  simp only [Rule.childTexts, List.map_map, Function.comp_def, Part.layout_unlocated]

theorem compressedOf_unlocated (parts : List Part) :
    compressedOf (parts.map Part.unlocated) = compressedOf parts := by
  fun_induction compressedOf parts with
  | case1 => rfl
  | case2 part => exact Part.layout_unlocated .compressed 1 part
  | case3 d next parts ih =>
    rw [← ih]
    rfl
  | case4 t next parts ih =>
    rw [← ih]
    rfl

theorem compactOf_unlocated (before : Before) (parts : List Part) :
    compactOf depth before (parts.map Part.unlocated) = compactOf depth before parts := by
  induction parts generalizing before with
  | nil => cases before <;> rfl
  | cons part parts ih =>
    cases part <;> cases before <;> simp [compactOf, Part.unlocated, ih] <;> rfl

theorem Directive.layoutBlock_unlocated (d : Directive) (parts : List Part) :
    d.unlocated.layoutBlock style depth (parts.map Part.unlocated)
      = d.layoutBlock style depth parts := by
  simp only [Directive.layoutBlock, linesOf_unlocated, compactOf_unlocated, compressedOf_unlocated]
  rfl

theorem Rule.layout_asPlaced (note : Text) (rule : Rule) (parts : List Part) :
    rule.asPlaced.layout style note depth (parts.map Part.unlocated)
      = rule.layout style note depth parts := by
  simp only [Rule.layout, Rule.childTexts_unlocated]
  rfl

end Layout

namespace Node

mutual

theorem part_view (style : Style) (depth : Int) : ∀ node : Node,
    part style SourceNote.silent depth (view Rule.asPlaced node)
      = (part style SourceNote.silent depth node).unlocated
  | rule r children => by
    rw [view, part, part, parts_view]
    exact congrArg Part.text (Rule.layout_asPlaced style (depth + r.depth) [] r _)
  | declaration _ => rfl
  | directive _ => rfl
  | block d children => by
    have hempty : (viewOf Rule.asPlaced children).isEmpty = children.isEmpty := by
      rw [viewOf_eq_map, List.isEmpty_map]
    rw [view, part, part, parts_view, hempty]
    split
    · rfl
    · exact congrArg Part.text (Directive.layoutBlock_unlocated style depth d _)
  | sheet _ _ => rfl

theorem parts_view (style : Style) (depth : Int) : ∀ nodes : List Node,
    parts style SourceNote.silent depth (viewOf Rule.asPlaced nodes)
      = (parts style SourceNote.silent depth nodes).map Part.unlocated
  | [] => rfl
  | node :: nodes => by
    rw [viewOf, parts, parts, visible_view, part_view style depth node,
      parts_view style depth nodes]
    split <;> rfl

end

end Node

/-- Without notes the text of a sheet does not show where its nodes come from. -/
theorem layoutSheet_view (style : Style) (nodes : List Node) :
    layoutSheet style SourceNote.silent (Node.viewOf Rule.asPlaced nodes)
      = layoutSheet style SourceNote.silent nodes := by
  simp only [layoutSheet, Node.parts_view, List.flatMap_map, Part.layout_unlocated,
    linesOf_unlocated]

/-! ## Trees that say the same -/

namespace Node

mutual

theorem view_eq_of_same : ∀ {node other : Node}, same node other = true →
    first? isSheet node = none → (∀ p ∈ rules node, p.1.depth = 0) →
    (∀ p ∈ rules other, p.1.depth = 0) → view Rule.asWritten node = view Rule.asWritten other
  | rule r children, rule s others, h, hsheet, hdepth, hdepth' => by
    rw [same, Bool.and_eq_true, beq_iff_eq] at h
    rw [rules, List.forall_mem_cons] at hdepth hdepth'
    have hrule : r.asWritten = s.asWritten := by
      rw [Rule.asWritten, Rule.asWritten, h.1, hdepth.1, hdepth'.1]
    rw [view, view, hrule, viewOf_eq_of_sameAll h.2 (first?_rule_eq_none.1 hsheet).2 hdepth.2
      hdepth'.2]
  | declaration d, declaration e, h, _, _, _ => by
    simp only [same, Bool.and_eq_true, beq_iff_eq] at h
    simp only [view, Declaration.unlocated, h]
  | directive d, directive e, h, _, _, _ => by
    rw [same, beq_iff_eq] at h
    simp only [view, Directive.unlocated, h]
  | block d children, block e others, h, hsheet, hdepth, hdepth' => by
    rw [same, Bool.and_eq_true, beq_iff_eq] at h
    rw [view, view, Directive.unlocated, Directive.unlocated, h.1,
      viewOf_eq_of_sameAll h.2 (first?_block_eq_none.1 hsheet).2 hdepth hdepth']

/-- Trees that say the same, with no rule put deeper than another, are the same as
written. -/
theorem viewOf_eq_of_sameAll : ∀ {nodes others : List Node}, sameAll nodes others = true →
    firstOf? isSheet nodes = none → (∀ p ∈ rulesOf nodes, p.1.depth = 0) →
    (∀ p ∈ rulesOf others, p.1.depth = 0) →
      viewOf Rule.asWritten nodes = viewOf Rule.asWritten others
  | [], [], _, _, _, _ => rfl
  | node :: nodes, other :: others, h, hsheet, hdepth, hdepth' => by
    rw [sameAll, Bool.and_eq_true] at h
    rw [firstOf?_eq_none, List.forall_mem_cons, ← firstOf?_eq_none] at hsheet
    rw [rulesOf, List.forall_mem_append] at hdepth hdepth'
    rw [viewOf, viewOf, view_eq_of_same h.1 hsheet.1 hdepth.1 hdepth'.1,
      viewOf_eq_of_sameAll h.2 hsheet.2 hdepth.2 hdepth'.2]

end

end Node

/-! ## A whole sheet -/

/-- The nodes of the sheet as they were written, of no file. -/
def Sheet.asWritten (sheet : Sheet) : Sheet :=
  { children := Node.viewOf Rule.asWritten sheet.children }

section WholeSheet

variable {options others : Options} {env otherEnv : Environment}

theorem Sheet.resolved_asWritten (h : ∀ name, env.get? name = otherEnv.get? name) (sheet : Sheet) :
    sheet.asWritten.resolved otherEnv
      = outcomeVia (Node.viewOf Rule.asResolved) (sheet.resolved env) := by
  rw [Sheet.resolved, Sheet.resolved, Sheet.asWritten, Node.prepareAll_view h]
  exact outcomeVia_bind fun prepared => Node.resolveAll_view none prepared

/-- Without notes the text of a sheet depends on nothing but its nodes as they were
written, the style and the values of the variables. -/
theorem Sheet.toCss_asWritten (hnote : options.note = .off) (hnote' : others.note = .off)
    (hstyle : options.style = others.style)
    (hvariables : ∀ name, options.environment.get? name = others.environment.get? name)
    (sheet : Sheet) :
    sheet.asWritten.toCss others = outcomeVia id (sheet.toCss options) := by
  have hannotate : options.annotate = SourceNote.silent := by rw [Options.annotate, hnote]
  have hannotate' : others.annotate = SourceNote.silent := by rw [Options.annotate, hnote']
  rw [Sheet.toCss_eq, Sheet.toCss_eq, Sheet.resolved_asWritten hvariables, hannotate, hannotate',
    hstyle]
  cases sheet.resolved options.environment with
  | error e => rfl
  | ok nodes =>
    show Except.ok (layoutSheet others.style SourceNote.silent
        (Node.flattenAll others.style false (Node.viewOf Rule.asResolved nodes)))
      = Except.ok (layoutSheet others.style SourceNote.silent
        (Node.flattenAll others.style false nodes))
    rw [← Node.flattenAll_view, ← layoutSheet_view others.style
      (Node.flattenAll others.style false nodes), Node.viewOf_eq_map]
    rfl

/-- **Origins do not reach the text.**  Take two sheets of rules, declarations and
directives that say the same and whose rules have no depth, and no matter where their
nodes come from and what is left in their rules.  Without notes, with the same style and
the same values of the variables, but with any directories, both have the same text, or
both fail and their errors differ in the origin only. -/
theorem toCss_of_same {sheet other : Sheet} (hnote : options.note = .off)
    (hnote' : others.note = .off) (hstyle : options.style = others.style)
    (hvariables : ∀ name, options.environment.get? name = others.environment.get? name)
    (hsame : Node.sameAll sheet.children other.children = true)
    (hsheet : Node.firstOf? Node.isSheet sheet.children = none)
    (hdepth : ∀ p ∈ Node.rulesOf sheet.children, p.1.depth = 0)
    (hdepth' : ∀ p ∈ Node.rulesOf other.children, p.1.depth = 0) :
    (∃ css, sheet.toCss options = .ok css ∧ other.toCss others = .ok css)
      ∨ ∃ e e', sheet.toCss options = .error e ∧ other.toCss others = .error e'
        ∧ e.unlocated = e'.unlocated ∧ e.bareMessage = e'.bareMessage := by
  -- both are seen as the text of the nodes as they were written
  have hwritten : sheet.asWritten = other.asWritten := by
    rw [Sheet.asWritten, Sheet.asWritten, Node.viewOf_eq_of_sameAll hsame hsheet hdepth hdepth']
  have hseen : outcomeVia id (sheet.toCss options) = outcomeVia id (other.toCss others) := by
    calc outcomeVia id (sheet.toCss options)
        = sheet.asWritten.toCss others :=
          (Sheet.toCss_asWritten hnote hnote' hstyle hvariables sheet).symm
      _ = other.asWritten.toCss others := by rw [hwritten]
      _ = outcomeVia id (other.toCss others) :=
          Sheet.toCss_asWritten hnote' hnote' rfl (fun _ => rfl) other
  rcases outcomeVia_id_eq hseen with hok | ⟨e, e', he, he', hunlocated⟩
  · exact Or.inl hok
  · refine Or.inr ⟨e, e', he, he', hunlocated, ?_⟩
    rw [← CompileError.bareMessage_unlocated e, hunlocated, CompileError.bareMessage_unlocated]

end WholeSheet

/-- A fresh tree and one that comes from a file, with selectors and a group end left in
its rules.  Once the variable has a value they have the same text, and before that they
fail in the same way at different places. -/
theorem toCss_of_same_moved :
    let tree (origin : Origin) (left : Rule) : List Node :=
      [.rule { left with lines := [['a']], origin }
        [.declaration { name := ['x'], value := ['$', 'v'], origin },
          .rule { left with lines := [['&', 'b']], origin }
            [.declaration { name := ['y'], value := ['z'], origin }]],
        .block { value := ['@', 'm'], origin }
          [.rule { left with lines := [['c']], origin }
            [.declaration { name := ['y'], value := ['z'], origin }]]]
    let left : Rule := { parsed := some [], resolved := some [[['e']]], groupEnd := true }
    let sheet : Sheet := { children := tree {} {} }
    let other : Sheet := { path := some ['f'], children := tree ⟨some 7, some ['f']⟩ left }
    let moved : Options := { base := some ['/', 'g'], directory := ['/', 'h'] }
    let environment : Environment := { entries := [(['v'], .text ['1'])] }
    let css : Text := "a \x7b\n  x: 1; \x7d\n  ab \x7b\n    y: z; \x7d\n\n".toList
      ++ "@m \x7b\n  c \x7b\n    y: z; \x7d \x7d\n".toList
    Node.sameAll sheet.children other.children = true
      ∧ sheet.toCss { environment } = .ok css ∧ other.toCss { moved with environment } = .ok css
      ∧ ∃ e e', sheet.toCss {} = .error e ∧ other.toCss moved = .error e'
        ∧ e.unlocated = e'.unlocated ∧ e.bareMessage = e'.bareMessage ∧ e.message ≠ e'.message := by
  intro tree left sheet other moved environment css
  have hsame : Node.sameAll sheet.children other.children = true := by decide
  have hdepth : ∀ p ∈ Node.rulesOf sheet.children, p.1.depth = 0 := by decide
  have hdepth' : ∀ p ∈ Node.rulesOf other.children, p.1.depth = 0 := by decide
  have houtcomes : ∀ environment : Environment,
      (∃ css, sheet.toCss { environment } = .ok css
          ∧ other.toCss { moved with environment } = .ok css)
        ∨ ∃ e e', sheet.toCss { environment } = .error e
          ∧ other.toCss { moved with environment } = .error e'
          ∧ e.unlocated = e'.unlocated ∧ e.bareMessage = e'.bareMessage :=
    fun _ => toCss_of_same rfl rfl rfl (fun _ => rfl) hsame rfl hdepth hdepth'
  have hcss : sheet.toCss { environment } = .ok css := by decide +kernel
  refine ⟨hsame, hcss, ?_, ?_⟩
  · rcases houtcomes environment with ⟨css', h, h'⟩ | ⟨e, e', h, -⟩
    · rw [hcss] at h
      cases h
      exact h'
    · rw [hcss] at h
      cases h
  · have he : sheet.toCss {} = .error (.undefined ['v'] {}) := by decide +kernel
    have he' : other.toCss moved = .error (.undefined ['v'] ⟨some 7, some ['f']⟩) := by decide +kernel
    rcases houtcomes {} with ⟨css, h, -⟩ | ⟨e, e', h, h', hunlocated, hbare⟩
    · rw [he] at h
      cases h
    · rw [he] at h
      rw [he'] at h'
      cases h
      cases h'
      exact ⟨_, _, he, he', hunlocated, hbare, by decide⟩

end NestedSheet
