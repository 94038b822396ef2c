import NestedSheet.Proofs.Listing
import NestedSheet.Proofs.Trim

/-!
# One sheet after another

Compiling goes through the nodes of a sheet one after the other, so the nodes of two
sheets put together compile to their flat nodes put together.  The text is not quite as
simple: the blanks at the end of a sheet are trimmed, and what is trimmed there stands
in the middle of the longer one.  How much that is depends on the last node only.  Every
node ends with a character that is not blank, except for the newline behind a block and
behind the last rule of a group, and the last rule of a sheet always is one.

Main results:

* `Node.layout_ends` — how the text of a node ends.
* `groupEnd_of_getLast?` — the last rule of a flat sheet ends its group.
* `layoutSheet_append` — the text of flat nodes put together.
* `toCss_append` — the CSS of two sheets put together.
-/

namespace NestedSheet

/-- What stands behind each node of a sheet. -/
def Style.lineEnd (style : Style) : Text :=
  if style = .compressed then [] else ['\n']

namespace Node

/-- What stands in the text of a node behind its last character that is not blank. -/
def closing (style : Style) : Node → Text
  | rule r _ => if r.groupEnd then style.lineEnd else []
  | block _ children => if children.isEmpty then [] else style.lineEnd
  | _ => []

/-- Is there an empty line between the node and the next one? -/
def leavesGap : Node → Bool
  | rule .. => true
  | block _ children => !children.isEmpty
  | _ => false

end Node

/-- What stands between the text of some nodes and that of the nodes behind them. -/
def glue (style : Style) (nodes : List Node) : Text :=
  if style = .compressed then []
  else if nodes.getLast?.any Node.leavesGap then ['\n', '\n'] else ['\n']

/-! ## How the text of a node ends -/

theorem Rule.layout_ends (style : Style) (note : Text) (depth : Int) (rule : Rule)
    (parts : List Part) : ∃ init, rule.layout style note depth parts
      = init ++ '}' :: if rule.groupEnd then style.lineEnd else [] := by
  have hspace : ∀ before final : Text,
      before ++ [' ', '}'] ++ final = before ++ [' '] ++ '}' :: final := by simp
  unfold Rule.layout
  cases style with
  | nested => exact ⟨_, hspace _ _⟩
  | compact => exact ⟨_, hspace _ _⟩
  | expanded => exact ⟨_, rfl⟩
  | compressed =>
    -- the group has no newline at its end here
    have hend : (if rule.groupEnd = true then Style.compressed.lineEnd else []) = [] := ite_self []
    rw [hend]
    exact ⟨_, rfl⟩

theorem Directive.layoutBlock_ends (style : Style) (depth : Int) (d : Directive)
    (parts : List Part) : ∃ init, d.layoutBlock style depth parts = init ++ '}' :: style.lineEnd := by
  have hspace : ∀ before : Text, before ++ [' ', '}', '\n'] = before ++ [' '] ++ '}' :: ['\n'] := by
    simp
  unfold Directive.layoutBlock
  cases style with
  | nested => exact ⟨_, hspace _⟩
  | compact => exact ⟨_, hspace _⟩
  | expanded => exact ⟨_, rfl⟩
  | compressed => exact ⟨_, rfl⟩

namespace Node

/-- The text of a node ends with a character that is not blank, and then with what
closes the node. -/
theorem layout_ends {style : Style} {annotate : Rule → Int → Text} {depth : Int} {node : Node}
    (hdeclaration : node.isDeclaration = false) (hsheet : node.isSheet = false) :
    ∃ init c, Text.isBlank c = false
      ∧ node.layout style annotate depth = init ++ c :: node.closing style := by
  cases node with
  | rule r children =>
    obtain ⟨init, hinit⟩ := Rule.layout_ends style (annotate r (depth + r.depth)) (depth + r.depth) r
      (parts style annotate (Rule.childDepth style (depth + r.depth)) children)
    exact ⟨init, '}', rfl, hinit⟩
  | declaration _ => cases hdeclaration
  | directive d => exact ⟨Directive.indent style depth ++ d.value, ';', rfl, rfl⟩
  | block d children =>
    -- an empty block stays in its line, and no newline closes it
    by_cases hempty : children.isEmpty = true
    · refine ⟨Directive.indent style depth ++ d.value ++ [' ', '{'], '}', rfl, ?_⟩
      simp [layout, part, hempty, closing, Part.layout]
    · obtain ⟨init, hinit⟩ := Directive.layoutBlock_ends style depth d
        (parts style annotate (if style = .compressed then 1 else depth + 1) children)
      refine ⟨init, '}', rfl, ?_⟩
      simp [layout, part, hempty, closing, Part.layout, hinit]
  | sheet _ _ => cases hsheet

/-! ## The last rule of a sheet -/

theorem groupEnd_endGroup {nodes : List Node} {r : Rule} {children : List Node}
    (h : (endGroup nodes).getLast? = some (rule r children)) : r.groupEnd = true := by
  fun_induction endGroup nodes with
  | case1 => cases h
  | case2 last =>
    -- only a rule is marked, and only a rule is a rule
    cases last with
    | rule r' children' =>
      cases h
      rfl
    | _ => cases h
  | case3 node next nodes ih =>
    have hne : endGroup (next :: nodes) ≠ [] := by
      cases nodes <;> exact List.cons_ne_nil _ _
    rw [List.getLast?_cons_of_ne_nil hne] at h
    exact ih h

theorem groupEnd_flatten {style : Style} {node : Node} {r : Rule} {children : List Node}
    (h : (flatten style false node).getLast? = some (rule r children)) : r.groupEnd = true := by
  cases node with
  | rule r' children' => exact groupEnd_endGroup h
  | declaration _ => cases h
  | directive _ => cases h
  | block _ _ =>
    rw [flatten] at h
    cases h
  | sheet _ _ => cases h

/-- The last node of a flat sheet, if it is a rule, ends its group. -/
theorem groupEnd_of_getLast? {style : Style} {nodes : List Node} {r : Rule} {children : List Node}
    (h : (flattenAll style false nodes).getLast? = some (rule r children)) : r.groupEnd = true := by
  induction nodes with
  | nil => cases h
  | cons node nodes ih =>
    rw [flattenAll] at h
    -- the nodes behind may all disappear, and then the last rule is one of this node
    by_cases hnil : flattenAll style false nodes = []
    · rw [hnil, List.append_nil] at h
      exact groupEnd_flatten h
    · rw [List.getLast?_append_of_ne_nil _ hnil] at h
      exact ih h

/-! ## Nodes that are not declarations -/

theorem isDeclaration_prepare {env : Environment} {node result : Node}
    (h : prepare env node = .ok result) : result.isDeclaration = node.isDeclaration := by
  cases node with
  | rule r children =>
    obtain ⟨lines, others, -, -, rfl⟩ := prepare_rule_eq_ok.1 h
    rfl
  | declaration d =>
    obtain ⟨value, -, rfl⟩ := prepare_declaration_eq_ok.1 h
    rfl
  | directive d =>
    cases h
    rfl
  | block d children =>
    obtain ⟨others, -, rfl⟩ := prepare_block_eq_ok.1 h
    rfl
  | sheet path children => cases h

theorem isDeclaration_resolve {outer : Option Selector.Resolved} {node result : Node}
    (h : resolve outer node = .ok result) : result.isDeclaration = node.isDeclaration := by
  cases node with
  | rule r children =>
    obtain ⟨resolved, others, -, -, rfl⟩ := resolve_rule_eq_ok.1 h
    rfl
  | declaration d =>
    cases h
    rfl
  | directive d =>
    cases h
    rfl
  | block d children =>
    obtain ⟨others, -, rfl⟩ := resolve_block_eq_ok.1 h
    rfl
  | sheet path children => cases h

theorem isDeclaration_flatten {style : Style} {enclosed : Bool} {node result : Node}
    (h : result ∈ flatten style enclosed node) : result.isDeclaration = node.isDeclaration := by
  cases node with
  | rule r children =>
    obtain ⟨r', children', rfl⟩ := isRule_iff.1 (isRule_of_mem_flatten h)
    rfl
  | declaration d => rw [List.mem_singleton.1 h]
  | directive d => rw [List.mem_singleton.1 h]
  | block d children =>
    rw [flatten] at h
    rw [List.mem_singleton.1 h]
    rfl
  | sheet path children => rw [List.mem_singleton.1 h]

theorem isDeclaration_flattenAll {style : Style} {enclosed : Bool} {nodes : List Node}
    (hnodes : ∀ node ∈ nodes, node.isDeclaration = false) :
    ∀ node ∈ flattenAll style enclosed nodes, node.isDeclaration = false := by
  induction nodes with
  | nil => exact nofun
  | cons node nodes ih =>
    rw [List.forall_mem_cons] at hnodes
    rw [flattenAll, List.forall_mem_append]
    exact ⟨fun result hresult => (isDeclaration_flatten hresult).trans hnodes.1, ih hnodes.2⟩

end Node

theorem Sheet.isDeclaration_resolved {env : Environment} {sheet : Sheet} {nodes : List Node}
    (h : sheet.resolved env = .ok nodes)
    (hsheet : ∀ node ∈ sheet.children, node.isDeclaration = false) :
    ∀ node ∈ nodes, node.isDeclaration = false := by
  obtain ⟨prepared, hprepared, hnodes⟩ := steps_eq_ok.1 h
  rw [Node.prepareAll_eq_mapM] at hprepared
  rw [Node.resolveAll_eq_mapM] at hnodes
  intro node hnode
  obtain ⟨before, hbefore, hresolve⟩ := (mem_mapM hnodes node).1 hnode
  obtain ⟨first, hfirst, hprepare⟩ := (mem_mapM hprepared before).1 hbefore
  rw [Node.isDeclaration_resolve hresolve, Node.isDeclaration_prepare hprepare]
  exact hsheet first hfirst

/-- Sheets put together are resolved to what each of them is resolved to. -/
theorem Sheet.resolved_append {env : Environment} {a b : Sheet} {nodes others : List Node}
    (ha : a.resolved env = .ok nodes) (hb : b.resolved env = .ok others) (path : Option Text) :
    Sheet.resolved env { path, children := a.children ++ b.children } = .ok (nodes ++ others) := by
  obtain ⟨prepared, hprepared, hnodes⟩ := steps_eq_ok.1 ha
  obtain ⟨rest, hrest, hothers⟩ := steps_eq_ok.1 hb
  refine steps_eq_ok.2 ⟨prepared ++ rest, ?_, ?_⟩
  · rw [Node.prepareAll_eq_mapM] at hprepared hrest ⊢
    rw [List.mapM_append, hprepared, hrest]
    rfl
  · rw [Node.resolveAll_eq_mapM] at hnodes hothers ⊢
    rw [List.mapM_append, hnodes, hothers]
    rfl

/-! ## The text of flat nodes -/

/-- The text of the nodes of a sheet before the blanks at its end are trimmed. -/
def bodyOf (style : Style) (annotate : Rule → Int → Text) (nodes : List Node) : Text :=
  (Node.parts style annotate 1 nodes).flatMap fun part => part.layout style 1 ++ style.lineEnd

theorem layoutSheet_eq (style : Style) (annotate : Rule → Int → Text) (nodes : List Node) :
    layoutSheet style annotate nodes
      = if (Text.stripEnd (bodyOf style annotate nodes)).isEmpty then []
        else Text.stripEnd (bodyOf style annotate nodes) ++ ['\n'] := by
  have hbody : bodyOf style annotate nodes
      = if style = .compressed then (Node.parts style annotate 1 nodes).flatMap (Part.layout style 1)
        else linesOf style 1 (Node.parts style annotate 1 nodes) := by
    unfold bodyOf Style.lineEnd
    split
    · simp only [List.append_nil]
    · rfl
  rw [hbody, layoutSheet]

/-- Flat nodes of a sheet as they are written one after the other. -/
structure Node.AreTop (nodes : List Node) : Prop where
  isDeclaration : ∀ node ∈ nodes, node.isDeclaration = false
  isSheet : ∀ node ∈ nodes, node.isSheet = false
  groupEnd : ∀ r children, nodes.getLast? = some (.rule r children) → r.groupEnd = true

section Body

variable {style : Style} {annotate : Rule → Int → Text} {nodes others : List Node}

theorem bodyOf_append : bodyOf style annotate (nodes ++ others)
    = bodyOf style annotate nodes ++ bodyOf style annotate others := by
  have hparts : Node.parts style annotate 1 (nodes ++ others)
      = Node.parts style annotate 1 nodes ++ Node.parts style annotate 1 others := by
    induction nodes with
    | nil => rfl
    | cons node nodes ih =>
      rw [List.cons_append, Node.parts, Node.parts, ih]
      split <;> rfl
  rw [bodyOf, hparts, List.flatMap_append]
  rfl

/-- What closes the last node and what stands behind it are the glue. -/
theorem closing_append_lineEnd {node : Node}
    (hgroup : ∀ r children, node = .rule r children → r.groupEnd = true) :
    node.closing style ++ style.lineEnd = glue style (nodes ++ [node]) := by
  have hlast : (nodes ++ [node]).getLast? = some node := List.getLast?_concat
  unfold glue Style.lineEnd
  rw [hlast]
  by_cases hstyle : style = .compressed
  · rw [if_pos hstyle, if_pos hstyle]
    cases node <;> simp [Node.closing, Style.lineEnd, hstyle]
  · -- a gap is the newline that closes a node and the one behind each node
    rw [if_neg hstyle, if_neg hstyle]
    cases node with
    | rule r children =>
      simp [Node.closing, Node.leavesGap, Style.lineEnd, hstyle, hgroup r children rfl]
    | block d children =>
      by_cases hempty : children = []
      · simp [Node.closing, Node.leavesGap, hempty]
      · simp [Node.closing, Node.leavesGap, Style.lineEnd, hstyle, hempty]
    | _ => simp [Node.closing, Node.leavesGap]

/-- The text of some nodes ends with a character that is not blank and with the glue. -/
theorem exists_bodyOf (h : Node.AreTop nodes) (hne : nodes ≠ []) :
    ∃ init c, Text.isBlank c = false
      ∧ bodyOf style annotate nodes = init ++ c :: glue style nodes := by
  rcases List.eq_nil_or_concat nodes with rfl | ⟨before, last, rfl⟩
  · exact absurd rfl hne
  · rw [List.concat_eq_append] at h ⊢
    have hmem : last ∈ before ++ [last] := List.mem_append_right before (List.mem_singleton.2 rfl)
    have hdeclaration := h.isDeclaration last hmem
    obtain ⟨init, c, hc, hlayout⟩ :=
      @Node.layout_ends style annotate 1 last hdeclaration (h.isSheet last hmem)
    have hvisible : last.visible = true := by
      cases last with
      | declaration _ => cases hdeclaration
      | _ => rfl
    have hbody : bodyOf style annotate [last] = last.layout style annotate 1 ++ style.lineEnd := by
      simp [bodyOf, Node.parts, hvisible, Node.layout]
    have hglue := @closing_append_lineEnd style before last
      fun r children heq => h.groupEnd r children (by rw [List.getLast?_concat, heq])
    refine ⟨bodyOf style annotate before ++ init, c, hc, ?_⟩
    rw [bodyOf_append, hbody, hlayout, ← hglue]
    simp

theorem isBlank_glue (nodes : List Node) : ∀ c ∈ glue style nodes, Text.isBlank c = true := by
  unfold glue
  split
  · exact nofun
  · split <;> exact List.all_eq_true.1 rfl

theorem stripEnd_glue {c : Char} (hc : Text.isBlank c = false) (init : Text) (nodes : List Node) :
    Text.stripEnd (init ++ c :: glue style nodes) = init ++ [c] := by
  have hsplit : init ++ c :: glue style nodes = init ++ [c] ++ glue style nodes := by simp
  rw [hsplit, Text.stripEnd, Text.dropEndWhile_append_all (isBlank_glue nodes),
    Text.dropEndWhile_concat hc]

/-- The text of flat nodes put together. -/
theorem layoutSheet_append (hnodes : Node.AreTop nodes) (hothers : Node.AreTop others) :
    let text := layoutSheet style annotate
    (text nodes = [] → text (nodes ++ others) = text others)
    ∧ (text others = [] → text (nodes ++ others) = text nodes)
    ∧ (text nodes ≠ [] → text others ≠ [] → ∃ body, text nodes = body ++ ['\n']
      ∧ text (nodes ++ others) = body ++ glue style nodes ++ text others) := by
  intro text
  -- the text of some nodes is trimmed at the glue
  have htext : ∀ init c, Text.isBlank c = false → ∀ list list' : List Node,
      bodyOf style annotate list = init ++ c :: glue style list' → text list = init ++ [c, '\n'] := by
    intro init c hc list list' hbody
    show layoutSheet style annotate list = _
    rw [layoutSheet_eq, hbody, stripEnd_glue hc]
    simp
  have hnil : ∀ list, Node.AreTop list → (text list = [] ↔ list = []) := by
    intro list hlist
    constructor
    · intro hempty
      by_contra hne
      obtain ⟨init, c, hc, hbody⟩ := @exists_bodyOf style annotate list hlist hne
      rw [htext init c hc list list hbody] at hempty
      simp at hempty
    · rintro rfl
      show layoutSheet style annotate [] = []
      rw [layoutSheet_eq]
      rfl
  refine ⟨fun hempty => ?_, fun hempty => ?_, fun hne hne' => ?_⟩
  · rw [(hnil nodes hnodes).1 hempty, List.nil_append]
  · rw [(hnil others hothers).1 hempty, List.append_nil]
  · obtain ⟨init, c, hc, hbody⟩ :=
      @exists_bodyOf style annotate nodes hnodes (mt (hnil nodes hnodes).2 hne)
    obtain ⟨init', c', hc', hbody'⟩ :=
      @exists_bodyOf style annotate others hothers (mt (hnil others hothers).2 hne')
    refine ⟨init ++ [c], by rw [htext init c hc nodes nodes hbody]; simp, ?_⟩
    -- what was trimmed behind the first nodes stands before the others
    have hboth : bodyOf style annotate (nodes ++ others)
        = init ++ c :: glue style nodes ++ init' ++ c' :: glue style others := by
      rw [bodyOf_append, hbody, hbody']
      simp
    rw [htext _ c' hc' _ others hboth, htext init' c' hc' others others hbody']
    simp

end Body

/-! ## Whole sheets -/

theorem Node.areTop_flattenAll {style : Style} {nodes : List Node}
    (hwritable : Node.firstOf? Node.isUnwritable nodes = none)
    (hnodes : ∀ node ∈ nodes, node.isDeclaration = false) :
    Node.AreTop (Node.flattenAll style false nodes) where
  isDeclaration := Node.isDeclaration_flattenAll hnodes
  isSheet := by
    have hflat := Node.firstOf?_eq_none_of_imp Node.isUnwritable_of_isSheet
      (Node.flattenAll_writable style false nodes hwritable)
    intro node hnode
    have hfirst := Node.firstOf?_eq_none.1 hflat node hnode
    cases node with
    | sheet path children => cases hfirst
    | _ => rfl
  groupEnd := fun r children h => Node.groupEnd_of_getLast? h

/-- **Compilation goes through concatenation.**  Let two sheets of rules and directives
compile.  Then the sheet of their nodes put together compiles.  Its text is that of one
of them if the other one has none.  Otherwise it is the text of the first one without
the newline at its end, the glue, and the text of the second one; there is no glue in
the compressed style, and else it is two newlines if the last flat node of the first
sheet is a rule or a directive with something in its block, and one newline if not. -/
theorem toCss_append {options : Options} {a b : Sheet} {textA textB : Text} (path : Option Text)
    (ha : ∀ node ∈ a.children, node.isDeclaration = false)
    (hb : ∀ node ∈ b.children, node.isDeclaration = false)
    (hA : a.toCss options = .ok textA) (hB : b.toCss options = .ok textB) :
    ∃ flat text, a.compile options = .ok flat
      ∧ Sheet.toCss options { path, children := a.children ++ b.children } = .ok text
      ∧ (textA = [] → text = textB) ∧ (textB = [] → text = textA)
      ∧ (textA ≠ [] → textB ≠ [] → ∃ body, textA = body ++ ['\n']
        ∧ text = body ++ glue options.style flat.children ++ textB) := by
  obtain ⟨nodes, hnodes, rfl⟩ := Sheet.toCss_eq_ok.1 hA
  obtain ⟨others, hothers, rfl⟩ := Sheet.toCss_eq_ok.1 hB
  -- every pass goes through concatenation, and so the flat nodes are put together
  have htop := @Node.areTop_flattenAll options.style nodes (Sheet.resolved_writable hnodes)
    (Sheet.isDeclaration_resolved hnodes ha)
  have htop' := @Node.areTop_flattenAll options.style others (Sheet.resolved_writable hothers)
    (Sheet.isDeclaration_resolved hothers hb)
  refine ⟨_, _, Sheet.compile_eq_ok.2 ⟨nodes, hnodes, rfl⟩,
    Sheet.toCss_eq_ok.2 ⟨nodes ++ others, Sheet.resolved_append hnodes hothers path, rfl⟩, ?_⟩
  rw [Node.flattenAll_append]
  exact layoutSheet_append htop htop'

/-- A group of two rules, and a block behind it. -/
theorem toCss_append_group :
    let own : Node := .declaration { name := ['x'], value := ['y'] }
    let a : Sheet := { children := [.rule { lines := [['a']] } [own, .rule { lines := [['b']] } [own]]] }
    let b : Sheet := { children := [.block { value := ['@', 'm'] } [.rule { lines := [['c']] } [own]]] }
    let textA : Text := "a \x7b\n  x: y; \x7d\n  a b \x7b\n    x: y; \x7d\n".toList
    let textB : Text := "@m \x7b\n  c \x7b\n    x: y; \x7d \x7d\n".toList
    a.toCss {} = .ok textA ∧ b.toCss {} = .ok textB
      ∧ ∃ body, textA = body ++ ['\n'] ∧ Sheet.toCss {} { children := a.children ++ b.children }
        = .ok (body ++ ['\n', '\n'] ++ textB) := by
  intro own a b textA textB
  let ready (name : Char) (selector : Text) : Rule :=
    { lines := [[name]], parsed := some [[[.literal [name]]]], resolved := some [[selector]] }
  let nodes : List Node := [.rule (ready 'a' ['a']) [own, .rule (ready 'b' ['a', ' ', 'b']) [own]]]
  let others : List Node := [.block { value := ['@', 'm'] } [.rule (ready 'c' ['c']) [own]]]
  have hnodes : a.resolved {} = .ok nodes := by cbv
  have hA : a.toCss {} = .ok textA := Sheet.toCss_eq_ok.2 ⟨nodes, hnodes, by decide +kernel⟩
  have hB : b.toCss {} = .ok textB := Sheet.toCss_eq_ok.2 ⟨others, by cbv, by decide +kernel⟩
  have hflat : a.compile {} = .ok { children := Node.flattenAll .nested false nodes } :=
    Sheet.compile_eq_ok.2 ⟨nodes, hnodes, rfl⟩
  have hnone : ∀ sheet : Sheet, sheet = a ∨ sheet = b →
      ∀ node ∈ sheet.children, node.isDeclaration = false := by
    rintro sheet (rfl | rfl) node hnode
    · rw [List.mem_singleton.1 hnode]
      rfl
    · rw [List.mem_singleton.1 hnode]
      rfl
  obtain ⟨flat', text, hflat', htext, -, -, hboth⟩ :=
    toCss_append none (hnone a (Or.inl rfl)) (hnone b (Or.inr rfl)) hA hB
  rw [hflat] at hflat'
  cases hflat'
  obtain ⟨body, hbody, rfl⟩ := hboth (by decide) (by decide)
  exact ⟨hA, hB, body, hbody, htext⟩

end NestedSheet
