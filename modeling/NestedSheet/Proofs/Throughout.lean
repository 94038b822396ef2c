import NestedSheet.Proofs.Listing

/-!
# What holds of every rule, pass by pass

A property of the rules of a tree, at any depth, goes through a pass of the
compilation if what the pass does to a single rule keeps it.  So an invariant of all
rules is proved by looking at one rule at a time:

* `prepareAll_rules` — preparing gives a rule the alternatives of its lines.
* `resolveAll_rules` — resolving gives a rule its selectors, and `outer` is what is
  known of the selectors of the rule around it.
* `flattenAll_rules` — flattening marks the ends of groups, and in the nested style
  it moves rules deeper; it makes no rules.
-/

namespace NestedSheet.Node

/-! ## Preparing -/

section Prepare

variable {env : Environment} {before after : Rule → Prop}

mutual

theorem prepare_rules
    (hstep : ∀ r lines, before r → r.lines.mapM (env.interpolateAt r.origin) = .ok lines →
      after { r with parsed := some (lines.map Selector.parse) }) :
    ∀ {node prepared : Node}, prepare env node = .ok prepared →
      (∀ p ∈ rules node, before p.1) → ∀ p ∈ rules prepared, after p.1
  | rule r children, prepared, h, hbefore => by
    obtain ⟨lines, others, hlines, hothers, rfl⟩ := prepare_rule_eq_ok.1 h
    rw [rules, List.forall_mem_cons] at hbefore ⊢
    exact ⟨hstep r lines hbefore.1 hlines, prepareAll_rules hstep hothers hbefore.2⟩
  | declaration d, prepared, h, _ => by
    obtain ⟨value, -, rfl⟩ := prepare_declaration_eq_ok.1 h
    exact fun p hp => absurd hp List.not_mem_nil
  | directive _, _, h, _ => by
    cases h
    exact fun p hp => absurd hp List.not_mem_nil
  | block d children, prepared, h, hbefore => by
    obtain ⟨others, hothers, rfl⟩ := prepare_block_eq_ok.1 h
    exact prepareAll_rules hstep hothers hbefore
  | sheet _ _, _, h, _ => nomatch h

theorem prepareAll_rules
    (hstep : ∀ r lines, before r → r.lines.mapM (env.interpolateAt r.origin) = .ok lines →
      after { r with parsed := some (lines.map Selector.parse) }) :
    ∀ {nodes prepared : List Node}, prepareAll env nodes = .ok prepared →
      (∀ p ∈ rulesOf nodes, before p.1) → ∀ p ∈ rulesOf prepared, after p.1
  | [], _, h, _ => by
    cases h
    exact fun p hp => absurd hp List.not_mem_nil
  | node :: nodes, prepared, h, hbefore => by
    obtain ⟨first, rest, hfirst, hrest, rfl⟩ := prepareAll_cons_eq_ok.1 h
    rw [rulesOf, List.forall_mem_append] at hbefore ⊢
    exact ⟨prepare_rules hstep hfirst hbefore.1, prepareAll_rules hstep hrest hbefore.2⟩

end

end Prepare

/-! ## Resolving -/

section Resolve

variable {before after : Rule → Prop} {outer : Selector.Resolved → Prop}

mutual

theorem resolve_rules
    (hstep : ∀ r around resolved, before r → (∀ selectors, around = some selectors → outer selectors) →
      r.resolve around = .ok resolved →
        outer resolved ∧ after { r with resolved := some resolved }) :
    ∀ {around : Option Selector.Resolved} {node result : Node}, resolve around node = .ok result →
      (∀ p ∈ rules node, before p.1) → (∀ selectors, around = some selectors → outer selectors) →
        ∀ p ∈ rules result, after p.1
  | around, rule r children, result, h, hbefore, haround => by
    obtain ⟨resolved, others, hresolved, hothers, rfl⟩ := resolve_rule_eq_ok.1 h
    rw [rules, List.forall_mem_cons] at hbefore ⊢
    obtain ⟨hself, hafter⟩ := hstep r around resolved hbefore.1 haround hresolved
    -- what is known of the selectors of this rule is known inside of it
    refine ⟨hafter, resolveAll_rules hstep hothers hbefore.2 fun selectors heq => ?_⟩
    exact Option.some.inj heq ▸ hself
  | _, declaration _, _, h, _, _ => by
    cases h
    exact fun p hp => absurd hp List.not_mem_nil
  | _, directive _, _, h, _, _ => by
    cases h
    exact fun p hp => absurd hp List.not_mem_nil
  | _, block d children, result, h, hbefore, _ => by
    obtain ⟨others, hothers, rfl⟩ := resolve_block_eq_ok.1 h
    exact resolveAll_rules hstep hothers hbefore nofun
  | _, sheet _ _, _, h, _, _ => nomatch h

theorem resolveAll_rules
    (hstep : ∀ r around resolved, before r → (∀ selectors, around = some selectors → outer selectors) →
      r.resolve around = .ok resolved →
        outer resolved ∧ after { r with resolved := some resolved }) :
    ∀ {around : Option Selector.Resolved} {nodes results : List Node},
      resolveAll around nodes = .ok results → (∀ p ∈ rulesOf nodes, before p.1) →
        (∀ selectors, around = some selectors → outer selectors) →
          ∀ p ∈ rulesOf results, after p.1
  | _, [], _, h, _, _ => by
    cases h
    exact fun p hp => absurd hp List.not_mem_nil
  | _, node :: nodes, results, h, hbefore, haround => by
    obtain ⟨first, rest, hfirst, hrest, rfl⟩ := resolveAll_cons_eq_ok.1 h
    rw [rulesOf, List.forall_mem_append] at hbefore ⊢
    exact ⟨resolve_rules hstep hfirst hbefore.1 haround,
      resolveAll_rules hstep hrest hbefore.2 haround⟩

end

end Resolve

/-! ## What the first two passes leave alone -/

section Kept

variable {α : Type} {kept : Rule → α}

mutual

theorem map_rules_prepare {env : Environment}
    (hkept : ∀ r lines, kept { r with parsed := some lines } = kept r) :
    ∀ {node prepared : Node}, prepare env node = .ok prepared →
      (rules prepared).map (kept ·.1) = (rules node).map (kept ·.1)
  | rule r children, prepared, h => by
    obtain ⟨lines, others, -, hothers, rfl⟩ := prepare_rule_eq_ok.1 h
    rw [rules, rules, List.map_cons, List.map_cons, hkept, map_rulesOf_prepareAll hkept hothers]
  | declaration d, prepared, h => by
    obtain ⟨value, -, rfl⟩ := prepare_declaration_eq_ok.1 h
    rfl
  | directive _, _, h => by
    cases h
    rfl
  | block d children, prepared, h => by
    obtain ⟨others, hothers, rfl⟩ := prepare_block_eq_ok.1 h
    exact map_rulesOf_prepareAll hkept hothers
  | sheet _ _, _, h => nomatch h

/-- Preparing keeps the rules in their order, and what does not depend on how their lines
are read. -/
theorem map_rulesOf_prepareAll {env : Environment}
    (hkept : ∀ r lines, kept { r with parsed := some lines } = kept r) :
    ∀ {nodes prepared : List Node}, prepareAll env nodes = .ok prepared →
      (rulesOf prepared).map (kept ·.1) = (rulesOf nodes).map (kept ·.1)
  | [], _, h => by
    cases h
    rfl
  | node :: nodes, prepared, h => by
    obtain ⟨first, rest, hfirst, hrest, rfl⟩ := prepareAll_cons_eq_ok.1 h
    rw [rulesOf, rulesOf, List.map_append, List.map_append, map_rules_prepare hkept hfirst,
      map_rulesOf_prepareAll hkept hrest]

end

mutual

theorem map_rules_resolve (hkept : ∀ r resolved, kept { r with resolved := some resolved } = kept r) :
    ∀ {around : Option Selector.Resolved} {node result : Node}, resolve around node = .ok result →
      (rules result).map (kept ·.1) = (rules node).map (kept ·.1)
  | around, rule r children, result, h => by
    obtain ⟨resolved, others, -, hothers, rfl⟩ := resolve_rule_eq_ok.1 h
    rw [rules, rules, List.map_cons, List.map_cons, hkept, map_rulesOf_resolveAll hkept hothers]
  | _, declaration _, _, h => by
    cases h
    rfl
  | _, directive _, _, h => by
    cases h
    rfl
  | _, block d children, result, h => by
    obtain ⟨others, hothers, rfl⟩ := resolve_block_eq_ok.1 h
    exact map_rulesOf_resolveAll hkept hothers
  | _, sheet _ _, _, h => nomatch h

/-- Resolving keeps the rules in their order, and what does not depend on their
selectors. -/
theorem map_rulesOf_resolveAll
    (hkept : ∀ r resolved, kept { r with resolved := some resolved } = kept r) :
    ∀ {around : Option Selector.Resolved} {nodes results : List Node},
      resolveAll around nodes = .ok results →
        (rulesOf results).map (kept ·.1) = (rulesOf nodes).map (kept ·.1)
  | _, [], _, h => by
    cases h
    rfl
  | _, node :: nodes, results, h => by
    obtain ⟨first, rest, hfirst, hrest, rfl⟩ := resolveAll_cons_eq_ok.1 h
    rw [rulesOf, rulesOf, List.map_append, List.map_append, map_rules_resolve hkept hfirst,
      map_rulesOf_resolveAll hkept hrest]

end

end Kept

/-! ## Flattening -/

section Flatten

variable {holds : Rule → Prop} {style : Style}

theorem rules_mapRule {f : Rule → Rule} (hf : ∀ r, holds r → holds (f r)) {node : Node}
    (h : ∀ p ∈ rules node, holds p.1) : ∀ p ∈ rules (node.mapRule f), holds p.1 := by
  cases node with
  | rule r children =>
    rw [mapRule, rules, List.forall_mem_cons]
    rw [rules, List.forall_mem_cons] at h
    exact ⟨hf r h.1, h.2⟩
  | declaration _ => exact h
  | directive _ => exact h
  | block _ _ => exact h
  | sheet _ _ => exact h

theorem forall_mem_rulesOf {nodes : List Node} :
    (∀ p ∈ rulesOf nodes, holds p.1) ↔ ∀ node ∈ nodes, ∀ p ∈ rules node, holds p.1 := by
  induction nodes with
  | nil => simp [rulesOf]
  | cons node nodes ih => rw [rulesOf, List.forall_mem_append, List.forall_mem_cons, ih]

theorem rulesOf_endGroup (hgroup : ∀ r isEnd, holds r → holds (r.withGroupEnd isEnd))
    {nodes : List Node} (h : ∀ p ∈ rulesOf nodes, holds p.1) :
    ∀ p ∈ rulesOf (endGroup nodes), holds p.1 := by
  fun_induction endGroup nodes with
  | case1 => exact h
  | case2 last =>
    rw [forall_mem_rulesOf, List.forall_mem_singleton] at h ⊢
    exact rules_mapRule (fun r => hgroup r true) h
  | case3 node next nodes ih =>
    rw [rulesOf, List.forall_mem_append] at h ⊢
    exact ⟨rules_mapRule (fun r => hgroup r false) h.1, ih h.2⟩

theorem rulesOf_splice (hdeepen : style = .nested → ∀ r, holds r → holds r.deepen) {r : Rule}
    (hr : holds r) {children : List Node} (h : ∀ p ∈ rulesOf children, holds p.1) :
    ∀ p ∈ rulesOf (splice style r children), holds p.1 := by
  rw [forall_mem_rulesOf] at h ⊢
  -- all that comes out was among the children, but for the rule itself
  have hown : ∀ p ∈ rulesOf (children.filter isOwn), holds p.1 :=
    forall_mem_rulesOf.2 fun child hchild => h child (List.mem_filter.1 hchild).1
  have hrules : ∀ child ∈ children.filter isRule, ∀ p ∈ rules child, holds p.1 :=
    fun child hchild => h child (List.mem_filter.1 hchild).1
  unfold splice
  simp only
  split
  · exact hrules
  · rw [List.forall_mem_cons, rules, List.forall_mem_cons]
    refine ⟨⟨hr, hown⟩, ?_⟩
    split
    · next hnested =>
      exact List.forall_mem_map.2 fun child hchild =>
        rules_mapRule (hdeepen hnested) (hrules child hchild)
    · exact hrules

mutual

theorem flatten_rules (hgroup : ∀ r isEnd, holds r → holds (r.withGroupEnd isEnd))
    (hdeepen : style = .nested → ∀ r, holds r → holds r.deepen) (enclosed : Bool) :
    ∀ {node : Node}, (∀ p ∈ rules node, holds p.1) →
      ∀ p ∈ rulesOf (flatten style enclosed node), holds p.1
  | rule r children, h => by
    rw [rules, List.forall_mem_cons] at h
    have hsplice := rulesOf_splice hdeepen h.1 (flattenAll_rules hgroup hdeepen true h.2)
    rw [flatten, flattenRule]
    split
    · exact hsplice
    · exact rulesOf_endGroup hgroup hsplice
  | declaration _, h => forall_mem_rulesOf.2 (List.forall_mem_singleton.2 h)
  | directive _, h => forall_mem_rulesOf.2 (List.forall_mem_singleton.2 h)
  | block d children, h => by
    rw [flatten, forall_mem_rulesOf, List.forall_mem_singleton]
    exact flattenAll_rules hgroup hdeepen false h
  | sheet _ _, h => forall_mem_rulesOf.2 (List.forall_mem_singleton.2 h)

theorem flattenAll_rules (hgroup : ∀ r isEnd, holds r → holds (r.withGroupEnd isEnd))
    (hdeepen : style = .nested → ∀ r, holds r → holds r.deepen) (enclosed : Bool) :
    ∀ {nodes : List Node}, (∀ p ∈ rulesOf nodes, holds p.1) →
      ∀ p ∈ rulesOf (flattenAll style enclosed nodes), holds p.1
  | [], h => h
  | node :: nodes, h => by
    rw [rulesOf, List.forall_mem_append] at h
    rw [flattenAll, rulesOf_append, List.forall_mem_append]
    exact ⟨flatten_rules hgroup hdeepen enclosed h.1, flattenAll_rules hgroup hdeepen enclosed h.2⟩

end

end Flatten

end NestedSheet.Node
