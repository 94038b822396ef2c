import NestedSheet.Proofs.Closed
import NestedSheet.Proofs.Faults
import NestedSheet.Proofs.Listing

/-!
# Compiling a compiled sheet

A compiled sheet can be compiled once more if each of its rules is given its selectors
as lines.  Nothing changes then but what depends on how the lines were written and on
where the rules were put before: the selectors are read as themselves, there are no
references left to replace, no rule stands in a rule, and flattening has nothing to
move.

Main results:

* `prepareAll_closed`, `resolveAll_closed` — the selectors of a resolved tree are closed.
* `prepareAll_restated`, `resolveAll_reread` — the first two passes over a flat tree.
* `flattenAll_flat` — the third one.
* `compile_restated` — a compiled sheet is a fixed point.
-/

namespace NestedSheet

/-- The rule with its selectors as its lines. -/
def Rule.restated (rule : Rule) : Rule :=
  { rule with lines := (rule.resolved.getD []).map Selector.joined }

/-- The rule with its selectors as its lines, once these are read. -/
def Rule.reread (rule : Rule) : Rule :=
  { rule.restated with parsed := some (rule.restated.lines.map Selector.parse) }

/-- The rule without its lines and without what says where it is put. -/
def Rule.essence (rule : Rule) : Rule :=
  { rule with lines := [], parsed := none, depth := 0, groupEnd := false }

namespace Node

mutual

/-- Changes what the rules of a tree say by themselves, at any depth; no stage goes
into a sheet. -/
def mapRules (f : Rule → Rule) : Node → Node
  | rule r children => rule (f r) (mapRulesOf f children)
  | block d children => block d (mapRulesOf f children)
  | node => node

/-- Changes what the rules of a list of trees say by themselves. -/
def mapRulesOf (f : Rule → Rule) : List Node → List Node
  | [] => []
  | node :: nodes => mapRules f node :: mapRulesOf f nodes

end

mutual

/-- The declarations of a tree at any depth. -/
def declarations : Node → List Declaration
  | rule _ children => declarationsOf children
  | declaration d => [d]
  | directive _ => []
  | block _ children => declarationsOf children
  | sheet _ _ => []

/-- The declarations of a list of trees at any depth. -/
def declarationsOf : List Node → List Declaration
  | [] => []
  | node :: nodes => declarations node ++ declarationsOf nodes

end

/-- The selectors of the rules of a list of trees, at any depth. -/
def selectorsOf (nodes : List Node) : List Text :=
  (rulesOf nodes).flatMap fun p => (p.1.resolved.getD []).flatten

/-! ## Changing the rules of a tree -/

section MapRules

variable (f g : Rule → Rule)

theorem mapRulesOf_eq_map (nodes : List Node) : mapRulesOf f nodes = nodes.map (mapRules f) := by
  induction nodes with
  | nil => rfl
  | cons node nodes ih => rw [mapRulesOf, ih, List.map_cons]

theorem isOwn_mapRules (node : Node) : (mapRules f node).isOwn = node.isOwn := by
  cases node <;> rfl

mutual

theorem mapRules_mapRules : ∀ node : Node,
    mapRules f (mapRules g node) = mapRules (f ∘ g) node
  | rule r children => by
    rw [mapRules, mapRules, mapRules, mapRulesOf_mapRulesOf children]
    rfl
  | block d children => by rw [mapRules, mapRules, mapRules, mapRulesOf_mapRulesOf children]
  | declaration _ => rfl
  | directive _ => rfl
  | sheet _ _ => rfl

theorem mapRulesOf_mapRulesOf : ∀ nodes : List Node,
    mapRulesOf f (mapRulesOf g nodes) = mapRulesOf (f ∘ g) nodes
  | [] => rfl
  | node :: nodes => by
    rw [mapRulesOf, mapRulesOf, mapRulesOf, mapRules_mapRules node, mapRulesOf_mapRulesOf nodes]

end

mutual

theorem rules_mapRules : ∀ node : Node,
    rules (mapRules f node) = (rules node).map fun p => (f p.1, mapRulesOf f p.2)
  | rule r children => by
    rw [mapRules, rules, rules, rulesOf_mapRulesOf children]
    rfl
  | block d children => by rw [mapRules, rules, rules, rulesOf_mapRulesOf children]
  | declaration _ => rfl
  | directive _ => rfl
  | sheet _ _ => rfl

theorem rulesOf_mapRulesOf : ∀ nodes : List Node,
    rulesOf (mapRulesOf f nodes) = (rulesOf nodes).map fun p => (f p.1, mapRulesOf f p.2)
  | [] => rfl
  | node :: nodes => by
    rw [mapRulesOf, rulesOf, rulesOf, rules_mapRules node, rulesOf_mapRulesOf nodes,
      List.map_append]

end

end MapRules

/-! ## The selectors of a resolved tree -/

/-- The rule was read as closed lines. -/
def HasClosedLines (p : Rule × List Node) : Prop :=
  ∃ lines, p.1.parsed = some lines ∧ Selector.ClosedLines lines

/-- The rule has closed selectors. -/
def HasClosedSelectors (p : Rule × List Node) : Prop :=
  ∃ resolved, p.1.resolved = some resolved ∧ Selector.Resolved.Closed resolved

/-- All quotes in the lines of the rule are closed once they are interpolated. -/
def HasTerminatedLines (env : Environment) (p : Rule × List Node) : Prop :=
  ∀ line ∈ p.1.lines, ∀ t, env.interpolate line = .ok t → Selector.Terminated t

mutual

theorem prepare_closed {env : Environment} : ∀ {node prepared : Node},
    prepare env node = .ok prepared → (∀ p ∈ rules node, HasTerminatedLines env p) →
      ∀ p ∈ rules prepared, HasClosedLines p
  | rule r children, prepared, h, hlines => by
    obtain ⟨texts, others, htexts, hothers, rfl⟩ := prepare_rule_eq_ok.1 h
    rw [rules, List.forall_mem_cons] at hlines ⊢
    refine ⟨⟨_, rfl, List.forall_mem_map.2 fun t ht => ⟨Selector.parse_ne_nil t, ?_⟩⟩,
      prepareAll_closed hothers hlines.2⟩
    obtain ⟨line, hline, heq⟩ := (mem_mapM htexts t).1 ht
    exact Selector.parse_closed (hlines.1 line hline t (interpolateAt_eq_ok_iff.1 heq))
  | declaration d, prepared, h, _ => by
    obtain ⟨value, -, rfl⟩ := prepare_declaration_eq_ok.1 h
    exact fun p hp => absurd hp List.not_mem_nil
  | directive _, _, h, _ => by
    cases h
    exact fun p hp => absurd hp List.not_mem_nil
  | block d children, prepared, h, hlines => by
    obtain ⟨others, hothers, rfl⟩ := prepare_block_eq_ok.1 h
    exact prepareAll_closed hothers hlines
  | sheet _ _, _, h, _ => nomatch h

/-- Preparing gives closed lines to the rules of trees in which all quotes are closed. -/
theorem prepareAll_closed {env : Environment} : ∀ {nodes prepared : List Node},
    prepareAll env nodes = .ok prepared → (∀ p ∈ rulesOf nodes, HasTerminatedLines env p) →
      ∀ p ∈ rulesOf prepared, HasClosedLines p
  | [], _, h, _ => by
    cases h
    exact fun p hp => absurd hp List.not_mem_nil
  | node :: nodes, prepared, h, hlines => by
    obtain ⟨first, rest, hfirst, hrest, rfl⟩ := prepareAll_cons_eq_ok.1 h
    rw [rulesOf, List.forall_mem_append] at hlines ⊢
    exact ⟨prepare_closed hfirst hlines.1, prepareAll_closed hrest hlines.2⟩

end

theorem resolve_eq_of_parsed {r : Rule} {lines : List Selector.Line} {outer : Option Selector.Resolved}
    {resolved : Selector.Resolved} (hparsed : r.parsed = some lines) :
    r.resolve outer = .ok resolved ↔ Selector.resolve lines outer = some resolved := by
  simp only [Rule.resolve, hparsed]
  cases Selector.resolve lines outer <;> simp

mutual

theorem resolve_closed {outer : Option Selector.Resolved} : ∀ {node result : Node},
    resolve outer node = .ok result → (∀ p ∈ rules node, HasClosedLines p) →
      (∀ ancestor, outer = some ancestor → Selector.Resolved.Closed ancestor) →
        ∀ p ∈ rules result, HasClosedSelectors p
  | rule r children, result, h, hlines, houter => by
    obtain ⟨resolved, others, hresolved, hothers, rfl⟩ := resolve_rule_eq_ok.1 h
    rw [rules, List.forall_mem_cons] at hlines ⊢
    obtain ⟨⟨lines, hparsed, hclosed⟩, hchildren⟩ := hlines
    have hself : Selector.Resolved.Closed resolved :=
      Selector.resolve_closed hclosed houter ((resolve_eq_of_parsed hparsed).1 hresolved)
    -- the rules inside are combined with selectors that are closed already
    refine ⟨⟨resolved, rfl, hself⟩, resolveAll_closed hothers hchildren fun ancestor heq => ?_⟩
    exact Option.some.inj heq ▸ hself
  | declaration _, _, h, _, _ => by
    cases h
    exact fun p hp => absurd hp List.not_mem_nil
  | directive _, _, h, _, _ => by
    cases h
    exact fun p hp => absurd hp List.not_mem_nil
  | block d children, result, h, hlines, _ => by
    obtain ⟨others, hothers, rfl⟩ := resolve_block_eq_ok.1 h
    exact resolveAll_closed hothers hlines nofun
  | sheet _ _, _, h, _, _ => nomatch h

/-- Resolving gives closed selectors to rules with closed lines. -/
theorem resolveAll_closed {outer : Option Selector.Resolved} : ∀ {nodes results : List Node},
    resolveAll outer nodes = .ok results → (∀ p ∈ rulesOf nodes, HasClosedLines p) →
      (∀ ancestor, outer = some ancestor → Selector.Resolved.Closed ancestor) →
        ∀ p ∈ rulesOf results, HasClosedSelectors p
  | [], _, h, _, _ => by
    cases h
    exact fun p hp => absurd hp List.not_mem_nil
  | node :: nodes, results, h, hlines, houter => by
    obtain ⟨first, rest, hfirst, hrest, rfl⟩ := resolveAll_cons_eq_ok.1 h
    rw [rulesOf, List.forall_mem_append] at hlines ⊢
    exact ⟨resolve_closed hfirst hlines.1 houter, resolveAll_closed hrest hlines.2 houter⟩

end

/-! ## The first two passes again -/

theorem mapM_interpolateAt_self (env : Environment) (origin : Origin) {texts : List Text}
    (h : ∀ t ∈ texts, '$' ∉ t) : texts.mapM (env.interpolateAt origin) = .ok texts := by
  induction texts with
  | nil => rfl
  | cons t texts ih =>
    obtain ⟨ht, htexts⟩ := List.forall_mem_cons.1 h
    have hself : env.interpolateAt origin t = .ok t :=
      interpolateAt_eq_ok_iff.2 (interpolate_without_dollar env ht)
    rw [List.mapM_cons, hself, ih htexts]
    rfl

mutual

theorem prepare_restated (env : Environment) : ∀ {node : Node}, first? isSheet node = none →
    (∀ p ∈ rules node, ∀ line ∈ p.1.restated.lines, '$' ∉ line) →
    (∀ d ∈ declarations node, '$' ∉ d.value) →
      prepare env (mapRules Rule.restated node) = .ok (mapRules Rule.reread node)
  | rule r children, hsheet, hlines, hvalues => by
    rw [rules, List.forall_mem_cons] at hlines
    rw [mapRules, mapRules, prepare, mapM_interpolateAt_self env _ hlines.1]
    show (do
      let children ← prepareAll env (mapRulesOf Rule.restated children)
      pure (rule r.reread children)) = _
    rw [prepareAll_restated env (first?_rule_eq_none.1 hsheet).2 hlines.2 hvalues]
    rfl
  | declaration d, _, _, hvalues => by
    have hself : env.interpolateAt d.origin d.value = .ok d.value :=
      interpolateAt_eq_ok_iff.2 (interpolate_without_dollar env (hvalues d (List.mem_singleton.2 rfl)))
    rw [mapRules, mapRules, prepare, hself]
    · rfl
    all_goals exact nofun
  | directive _, _, _, _ => rfl
  | block d children, hsheet, hlines, hvalues => by
    rw [mapRules, mapRules, prepare,
      prepareAll_restated env (first?_block_eq_none.1 hsheet).2 hlines hvalues]
    rfl
  | sheet _ _, hsheet, _, _ => nomatch hsheet

/-- Preparing trees without references whose rules have their selectors as lines only
reads these lines. -/
theorem prepareAll_restated (env : Environment) : ∀ {nodes : List Node},
    firstOf? isSheet nodes = none →
    (∀ p ∈ rulesOf nodes, ∀ line ∈ p.1.restated.lines, '$' ∉ line) →
    (∀ d ∈ declarationsOf nodes, '$' ∉ d.value) →
      prepareAll env (mapRulesOf Rule.restated nodes) = .ok (mapRulesOf Rule.reread nodes)
  | [], _, _, _ => rfl
  | node :: nodes, hsheet, hlines, hvalues => by
    rw [firstOf?_eq_none, List.forall_mem_cons, ← firstOf?_eq_none] at hsheet
    rw [rulesOf, List.forall_mem_append] at hlines
    rw [declarationsOf, List.forall_mem_append] at hvalues
    rw [mapRulesOf, mapRulesOf, prepareAll, prepare_restated env hsheet.1 hlines.1 hvalues.1,
      prepareAll_restated env hsheet.2 hlines.2 hvalues.2]
    rfl

end

/-- The selectors of the rule are read as themselves, and no rule stands in it. -/
structure Settled (p : Rule × List Node) : Prop where
  reads : ∃ resolved, p.1.resolved = some resolved
    ∧ Selector.resolve (p.1.restated.lines.map Selector.parse) none = some resolved
  isRule : ∀ child ∈ p.2, child.isRule = false

mutual

theorem resolve_reread : ∀ {node : Node}, first? isSheet node = none →
    (∀ p ∈ rules node, Settled p) → ∀ {outer : Option Selector.Resolved},
    (node.isRule = true → outer = none) →
      resolve outer (mapRules Rule.reread node) = .ok (mapRules Rule.reread node)
  | rule r children, hsheet, hrules, outer, houter => by
    rw [rules, List.forall_mem_cons] at hrules
    obtain ⟨⟨⟨resolved, hresolved, hreads⟩, hchildren⟩, hrules⟩ := hrules
    have hrule : r.reread.resolve none = .ok resolved := (resolve_eq_of_parsed rfl).2 hreads
    have hsame : { r.reread with resolved := some resolved } = r.reread := by
      rw [← hresolved]
      rfl
    -- no rule stands in this one, so what is inside does not see its selectors
    have hbelow : resolveAll (some resolved) (mapRulesOf Rule.reread children)
        = .ok (mapRulesOf Rule.reread children) := by
      refine resolveAll_reread (first?_rule_eq_none.1 hsheet).2 hrules fun child hchild htrue => ?_
      rw [hchildren child hchild] at htrue
      cases htrue
    rw [houter rfl, mapRules, resolve, hrule]
    show (do
      let children ← resolveAll (some resolved) (mapRulesOf Rule.reread children)
      pure (rule { r.reread with resolved := some resolved } children)) = _
    rw [hbelow, hsame]
    rfl
  | declaration _, _, _, _, _ => rfl
  | directive _, _, _, _, _ => rfl
  | block d children, hsheet, hrules, outer, _ => by
    rw [mapRules, resolve, resolveAll_reread (first?_block_eq_none.1 hsheet).2 hrules fun _ _ _ => rfl]
    rfl
  | sheet _ _, hsheet, _, _, _ => nomatch hsheet

/-- Resolving settled trees gives each rule the selectors that it has. -/
theorem resolveAll_reread : ∀ {nodes : List Node}, firstOf? isSheet nodes = none →
    (∀ p ∈ rulesOf nodes, Settled p) → ∀ {outer : Option Selector.Resolved},
    (∀ node ∈ nodes, node.isRule = true → outer = none) →
      resolveAll outer (mapRulesOf Rule.reread nodes) = .ok (mapRulesOf Rule.reread nodes)
  | [], _, _, _, _ => rfl
  | node :: nodes, hsheet, hrules, outer, houter => by
    rw [firstOf?_eq_none, List.forall_mem_cons, ← firstOf?_eq_none] at hsheet
    rw [rulesOf, List.forall_mem_append] at hrules
    rw [List.forall_mem_cons] at houter
    rw [mapRulesOf, resolveAll, resolve_reread hsheet.1 hrules.1 houter.1,
      resolveAll_reread hsheet.2 hrules.2 houter.2]
    rfl

end

/-! ## Flattening again -/

/-- The rule has something of its own, and nothing else. -/
def IsFlat (p : Rule × List Node) : Prop :=
  p.2 ≠ [] ∧ ∀ child ∈ p.2, child.isOwn = true

theorem splice_own (style : Style) (r : Rule) {children : List Node} (hne : children ≠ [])
    (hown : ∀ child ∈ children, child.isOwn = true) : splice style r children = [rule r children] := by
  have hrules : children.filter isRule = [] := by
    rw [List.filter_eq_nil_iff]
    intro child hchild
    rw [(isOwn_iff.1 (hown child hchild)).1]
    exact Bool.false_ne_true
  rw [splice, List.filter_eq_self.2 hown, hrules]
  simp [hne]

theorem flattenRule_own (style : Style) (enclosed : Bool) (r : Rule) {children : List Node}
    (hne : children ≠ []) (hown : ∀ child ∈ children, child.isOwn = true) :
    mapRulesOf Rule.essence (flattenRule style enclosed r children)
      = mapRulesOf Rule.essence [rule r children] := by
  rw [flattenRule, splice_own style r hne hown]
  split <;> rfl

mutual

theorem flatten_flat (style : Style) (enclosed : Bool) : ∀ node : Node,
    (∀ p ∈ rules node, IsFlat p) →
      mapRulesOf Rule.essence (flatten style enclosed node) = mapRulesOf Rule.essence [node]
  | rule r children, hflat => by
    rw [rules, List.forall_mem_cons] at hflat
    obtain ⟨⟨hne, hown⟩, hchildren⟩ := hflat
    have ih := flattenAll_flat style true children hchildren
    -- what takes the place of the children is their own as they are
    have hmap : (flattenAll style true children).map (mapRules Rule.essence)
        = children.map (mapRules Rule.essence) := by
      rw [← mapRulesOf_eq_map, ← mapRulesOf_eq_map, ih]
    have hne' : flattenAll style true children ≠ [] := by
      intro hnil
      rw [hnil, List.map_nil, eq_comm, List.map_eq_nil_iff] at hmap
      exact hne hmap
    have hown' : ∀ child ∈ flattenAll style true children, child.isOwn = true := by
      intro child hchild
      have hmem := List.mem_map_of_mem (f := mapRules Rule.essence) hchild
      rw [hmap] at hmem
      obtain ⟨other, hother, heq⟩ := List.mem_map.1 hmem
      rw [← isOwn_mapRules Rule.essence, ← heq, isOwn_mapRules]
      exact hown other hother
    rw [flatten, flattenRule_own style enclosed r hne' hown']
    show [mapRules Rule.essence (rule r (flattenAll style true children))]
      = [mapRules Rule.essence (rule r children)]
    rw [mapRules, mapRules, ih]
  | declaration _, _ => rfl
  | directive _, _ => rfl
  | block d children, hflat => by
    show [mapRules Rule.essence (block d (flattenAll style false children))]
      = [mapRules Rule.essence (block d children)]
    rw [mapRules, mapRules, flattenAll_flat style false children hflat]
  | sheet _ _, _ => rfl

/-- Flattening flat trees moves nothing. -/
theorem flattenAll_flat (style : Style) (enclosed : Bool) : ∀ nodes : List Node,
    (∀ p ∈ rulesOf nodes, IsFlat p) →
      mapRulesOf Rule.essence (flattenAll style enclosed nodes) = mapRulesOf Rule.essence nodes
  | [], _ => rfl
  | node :: nodes, hflat => by
    rw [rulesOf, List.forall_mem_append] at hflat
    have hfirst := flatten_flat style enclosed node hflat.1
    have hrest := flattenAll_flat style enclosed nodes hflat.2
    rw [flattenAll, mapRulesOf]
    rw [mapRulesOf_eq_map] at hfirst hrest ⊢
    rw [List.map_append, hfirst, hrest]
    rfl

end

theorem isFlat_of_mem_flattenAll {style : Style} {enclosed : Bool} {nodes : List Node}
    {p : Rule × List Node} (hp : p ∈ rulesOf (flattenAll style enclosed nodes)) : IsFlat p := by
  obtain ⟨q, -, -, hown, hne⟩ := exists_of_mem_flattenAll hp
  exact ⟨hne, fun child hchild => isOwn_of_mem_own (hown ▸ hchild)⟩

theorem IsFlat.mapRules {p : Rule × List Node} (h : IsFlat p) (f : Rule → Rule) :
    IsFlat (f p.1, mapRulesOf f p.2) := by
  obtain ⟨hne, hown⟩ := h
  show mapRulesOf f p.2 ≠ [] ∧ ∀ child ∈ mapRulesOf f p.2, child.isOwn = true
  rw [mapRulesOf_eq_map]
  refine ⟨by simpa using hne, List.forall_mem_map.2 fun child hchild => ?_⟩
  rw [isOwn_mapRules]
  exact hown child hchild

end Node

/-! ## A whole sheet -/

/-- The sheet with the selectors of each rule as its lines. -/
def Sheet.restated (sheet : Sheet) : Sheet :=
  { sheet with children := Node.mapRulesOf Rule.restated sheet.children }

theorem Rule.dollar_not_mem_restated {rule : Rule}
    (h : ∀ line ∈ rule.resolved.getD [], ∀ t ∈ line, '$' ∉ t) :
    ∀ line ∈ rule.restated.lines, '$' ∉ line := by
  refine List.forall_mem_map.2 fun line hline hdollar => ?_
  rcases Text.mem_intercalate hdollar with hmem | ⟨t, ht, hmem⟩
  · simp at hmem
  · exact h line hline t ht hmem

/-- The selectors of the rules of a resolved sheet are closed. -/
theorem closedSelectors_of_resolved {env : Environment} {sheet : Sheet} {nodes : List Node}
    (h : sheet.resolved env = .ok nodes)
    (hquotes : ∀ p ∈ Node.rulesOf sheet.children, Node.HasTerminatedLines env p) :
    ∀ p ∈ Node.rulesOf nodes, Node.HasClosedSelectors p := by
  obtain ⟨prepared, hprepared, hnodes⟩ := steps_eq_ok.1 h
  exact Node.resolveAll_closed hnodes (Node.prepareAll_closed hprepared hquotes) nofun

/-- The selectors of the rules of a compiled sheet are closed. -/
theorem closedSelectors_of_compile {options : Options} {sheet flat : Sheet}
    (h : sheet.compile options = .ok flat)
    (hquotes : ∀ p ∈ Node.rulesOf sheet.children, Node.HasTerminatedLines options.environment p) :
    ∀ p ∈ Node.rulesOf flat.children, Node.HasClosedSelectors p := by
  obtain ⟨nodes, hresolved, rfl⟩ := Sheet.compile_eq_ok.1 h
  have hclosed := closedSelectors_of_resolved hresolved hquotes
  intro p hp
  -- a rule keeps its selectors wherever it is put
  obtain ⟨q, hq, hrule, -⟩ := Node.exists_of_mem_flattenAll hp
  obtain ⟨resolved, heq, hresolved⟩ := hclosed q hq
  exact ⟨resolved, (congrArg Rule.resolved hrule).trans heq, hresolved⟩

/-- **A compiled sheet is a fixed point.**  Let a sheet compile, with all quotes in its
interpolated lines closed.  If the selectors of the result are not empty, do not start
with blanks and have no dollar signs in them, and neither have the values, then the
result compiles again once each of its rules is given its selectors as lines, and but
for the lines and where the rules are put it is the same, node for node. -/
theorem compile_restated {options : Options} {sheet flat : Sheet}
    (h : sheet.compile options = .ok flat)
    (hquotes : ∀ p ∈ Node.rulesOf sheet.children, Node.HasTerminatedLines options.environment p)
    (hselectors : ∀ t ∈ Node.selectorsOf flat.children, Selector.startsInk t = true ∧ '$' ∉ t)
    (hvalues : ∀ d ∈ Node.declarationsOf flat.children, '$' ∉ d.value) :
    ∃ again, flat.restated.compile options = .ok again ∧ again.path = flat.path
      ∧ Node.mapRulesOf Rule.essence again.children = Node.mapRulesOf Rule.essence flat.children := by
  have hclosed := closedSelectors_of_compile h hquotes
  have hstart : ∀ p ∈ Node.rulesOf flat.children, ∀ line ∈ p.1.resolved.getD [], ∀ t ∈ line,
      Selector.startsInk t = true ∧ '$' ∉ t := by
    intro p hp line hline t ht
    exact hselectors t (List.mem_flatMap.2 ⟨p, hp, List.mem_flatten.2 ⟨line, hline, ht⟩⟩)
  obtain ⟨nodes, hnodes, hflat⟩ := Sheet.compile_eq_ok.1 h
  have hisFlat : ∀ p ∈ Node.rulesOf flat.children, Node.IsFlat p := by
    rw [hflat]
    exact fun p hp => Node.isFlat_of_mem_flattenAll hp
  have hsheet : Node.firstOf? Node.isSheet flat.children = none := by
    rw [hflat]
    exact Node.firstOf?_eq_none_of_imp Node.isUnwritable_of_isSheet
      (Node.flattenAll_writable _ _ _ (Sheet.resolved_writable hnodes))
  -- closed selectors are read as themselves, and a flat rule has no rules in it
  have hsettled : ∀ p ∈ Node.rulesOf flat.children, Node.Settled p := by
    intro p hp
    obtain ⟨resolved, hresolved, hp'⟩ := hclosed p hp
    constructor
    · refine ⟨resolved, hresolved, ?_⟩
      have hstart := hstart p hp
      rw [Rule.restated, hresolved] at *
      exact Selector.resolve_joined hp' fun line hline t ht => (hstart line hline t ht).1
    · intro child hchild
      exact (Node.isOwn_iff.1 ((hisFlat p hp).2 child hchild)).1
  -- so the first two passes change nothing but what was read
  have hresolved : flat.restated.resolved options.environment
      = .ok (Node.mapRulesOf Rule.reread flat.children) := by
    refine steps_eq_ok.2 ⟨_, Node.prepareAll_restated options.environment hsheet ?_ hvalues,
      Node.resolveAll_reread hsheet hsettled fun _ _ _ => rfl⟩
    exact fun p hp => Rule.dollar_not_mem_restated
      fun line hline t ht => (hstart p hp line hline t ht).2
  refine ⟨_, Sheet.compile_eq_ok.2 ⟨_, hresolved, rfl⟩, rfl, ?_⟩
  -- and the third one finds every rule flat already
  rw [Node.flattenAll_flat, Node.mapRulesOf_mapRulesOf]
  · rfl
  · rw [Node.rulesOf_mapRulesOf]
    exact List.forall_mem_map.2 fun p hp => (hisFlat p hp).mapRules Rule.reread

/-- A string with a comma and a marker in it, a rule in a rule, and a block in a rule. -/
theorem compile_restated_string :
    let own : Node := .declaration { name := ['x'], value := ['y'] }
    let string : Text := ['"', '&', ',', '"']
    let sheet : Sheet := { children := [.rule { lines := ['a' :: string ++ [',', 'b']] }
      [own, .rule { lines := [['&', 'c']] } [own],
        .block { value := ['@', 'm'] } [.rule { lines := [['d']] } [own]]]] }
    ∃ flat, sheet.compile {} = .ok flat
      ∧ Node.selectorsOf flat.children
        = ['a' :: string, ['b'], ['d'], 'a' :: string ++ ['c'], ['b', 'c']]
      ∧ ∃ again, flat.restated.compile {} = .ok again
        ∧ Node.mapRulesOf Rule.essence again.children = Node.mapRulesOf Rule.essence flat.children := by
  intro own string sheet
  have hquotation : Text.Quotation string :=
    @Text.Quotation.intro '"' ['&', ','] rfl
      (.char (by decide) (by decide) (.char (by decide) (by decide) .nil))
  have hplain : ∀ line, (∀ c ∈ line, Text.isQuote c = false) → Selector.Terminated line := by
    intro line hline
    rw [← List.append_nil line, Selector.terminated_append hline]
    exact Selector.terminated_nil
  have hstring : Selector.Terminated ('a' :: string ++ [',', 'b']) :=
    (Selector.terminated_cons rfl _).2
      ((Selector.terminated_quotation hquotation _).2 (hplain _ (by simp [Text.isQuote])))
  have hlines : (Node.rulesOf sheet.children).flatMap (fun p => p.1.lines)
      = ['a' :: string ++ [',', 'b'], ['&', 'c'], ['d']] := rfl
  have hquotes : ∀ p ∈ Node.rulesOf sheet.children, Node.HasTerminatedLines {} p := by
    intro p hp line hline t ht
    have hmem : line ∈ ['a' :: string ++ [',', 'b'], ['&', 'c'], ['d']] := by
      rw [← hlines]
      exact List.mem_flatMap.2 ⟨p, hp, hline⟩
    have hdollar : ∀ line ∈ ['a' :: string ++ [',', 'b'], ['&', 'c'], ['d']], '$' ∉ line := by decide
    rw [interpolate_without_dollar {} (hdollar line hmem)] at ht
    cases ht
    simp only [List.mem_cons, List.not_mem_nil, or_false] at hmem
    rcases hmem with rfl | rfl | rfl
    · exact hstring
    · exact hplain _ (by simp [Text.isQuote])
    · exact hplain _ (by simp [Text.isQuote])
  have hcompile : ∃ flat, sheet.compile {} = .ok flat
      ∧ Node.selectorsOf flat.children
        = ['a' :: string, ['b'], ['d'], 'a' :: string ++ ['c'], ['b', 'c']]
      ∧ ∀ d ∈ Node.declarationsOf flat.children, '$' ∉ d.value := by
    exact ⟨_, by cbv, rfl, by decide⟩
  obtain ⟨flat, hflat, hselectors, hvalues⟩ := hcompile
  obtain ⟨again, hagain, -, hsame⟩ :=
    compile_restated hflat hquotes (by rw [hselectors]; decide) hvalues
  exact ⟨flat, hflat, hselectors, again, hagain, hsame⟩

end NestedSheet
