import NestedSheet.Proofs.CrossProduct
import NestedSheet.Proofs.FixedPoint
import NestedSheet.Proofs.Throughout

/-!
# Breaking a selector list over lines

The alternatives of a rule can be divided into lines in many ways.  The division decides
on the order of the selectors, but not on which selectors there are, and this goes down
through any number of levels: the selectors of the enclosing rule have another order then,
and so have those that are made from them.

Main results:

* `resolve_ungrouped` — one rule, read as lines that are divided differently.
* `resolveAll_ungrouped` — trees of rules.
* `resolve_regrouped` — both, for trees that were prepared.
-/

namespace NestedSheet

/-- The rule without the division of its alternatives into lines, and without what
depends on it. -/
def Rule.ungrouped (rule : Rule) : Rule :=
  { rule with
    lines := []
    parsed := rule.parsed.map fun lines => [lines.flatten]
    resolved := none }

/-- The two rules have the same selectors, up to the order. -/
def Rule.SameSelectors (a b : Rule) : Prop :=
  ∃ s t, a.resolved = some s ∧ b.resolved = some t ∧ s.flatten.Perm t.flatten

/-! ## Outcomes that are alike -/

/-- Two outcomes are alike if they are the same error, or results that are related. -/
inductive Alike {ε α β : Type} (related : α → β → Prop) : Except ε α → Except ε β → Prop where
  | error (e : ε) : Alike related (.error e) (.error e)
  | ok {a : α} {b : β} (h : related a b) : Alike related (.ok a) (.ok b)

/-- Outcomes stay alike in a step that takes related results to outcomes that are alike. -/
theorem Alike.bind {ε α α' β β' : Type} {related : α → α' → Prop} {after : β → β' → Prop}
    {first : Except ε α} {first' : Except ε α'} {second : α → Except ε β}
    {second' : α' → Except ε β'} (h : Alike related first first')
    (hsecond : ∀ a a', related a a' → Alike after (second a) (second' a')) :
    Alike after (do second (← first)) (do second' (← first')) := by
  cases h with
  | error e => exact .error e
  | ok h => exact hsecond _ _ h

theorem Alike.cases {ε α β : Type} {related : α → β → Prop} {first : Except ε α}
    {second : Except ε β} (h : Alike related first second) :
    (∃ e, first = .error e ∧ second = .error e)
      ∨ ∃ a b, first = .ok a ∧ second = .ok b ∧ related a b := by
  cases h with
  | error e => exact Or.inl ⟨e, rfl, rfl⟩
  | ok h => exact Or.inr ⟨_, _, rfl, rfl, h⟩

/-! ## One rule -/

namespace Selector

/-- The same selectors, up to the order, or no selectors on both sides. -/
abbrev SameOuter : Option Resolved → Option Resolved → Prop :=
  Option.Rel fun s t => s.flatten.Perm t.flatten

section Lines

variable {lines lines' : List Line} (hlines : lines.flatten = lines'.flatten)

include hlines

theorem refersToParent_ungrouped : refersToParent lines = refersToParent lines' := by
  rw [refersToParent, refersToParent, ← List.any_flatten, ← List.any_flatten, hlines]

theorem resolveIn_ungrouped {outer outer' : Resolved}
    (houter : outer.flatten.Perm outer'.flatten) :
    (resolveIn outer lines).flatten.Perm (resolveIn outer' lines').flatten :=
  calc (resolveIn outer lines).flatten
    List.Perm _ (outer.flatten.flatMap fun s => lines.flatten.map (Alternative.inside s)) :=
      flatten_resolveIn_perm outer lines
    List.Perm _ (outer'.flatten.flatMap fun s => lines'.flatten.map (Alternative.inside s)) := by
      rw [hlines]
      exact houter.flatMap_right _
    List.Perm _ (resolveIn outer' lines').flatten := (flatten_resolveIn_perm outer' lines').symm

/-- Lines that are divided differently are resolved to the same selectors up to the order,
or on neither side. -/
theorem resolve_ungrouped {outer outer' : Option Resolved} (houter : SameOuter outer outer') :
    SameOuter (resolve lines outer) (resolve lines' outer') := by
  cases houter with
  | some houter => exact .some (resolveIn_ungrouped hlines houter)
  | none =>
    -- at base level a marker is refused wherever its line is
    rw [resolve, resolve, refersToParent_ungrouped hlines]
    split
    · exact .none
    · refine .some ?_
      rw [← List.map_flatten, ← List.map_flatten, hlines]

end Lines

end Selector

/-- Rules that were read differ in the division into lines only if their alternatives are
the same. -/
theorem Rule.exists_lines {r r' : Rule} (hread : r.parsed.isSome = true)
    (h : r.ungrouped = r'.ungrouped) :
    ∃ lines lines', r.parsed = some lines ∧ r'.parsed = some lines'
      ∧ lines.flatten = lines'.flatten := by
  obtain ⟨lines, hlines⟩ := Option.isSome_iff_exists.1 hread
  have hparsed : r.ungrouped.parsed = r'.ungrouped.parsed := congrArg Rule.parsed h
  rw [ungrouped, ungrouped, hlines, Option.map_some, eq_comm, Option.map_eq_some_iff] at hparsed
  obtain ⟨lines', hlines', hflat⟩ := hparsed
  exact ⟨lines, lines', hlines, hlines', (List.cons.inj hflat).1.symm⟩

theorem Rule.resolve_ungrouped {r r' : Rule} (hread : r.parsed.isSome = true)
    (h : r.ungrouped = r'.ungrouped) {outer outer' : Option Selector.Resolved}
    (houter : Selector.SameOuter outer outer') :
    Alike (fun s t => s.flatten.Perm t.flatten) (r.resolve outer) (r'.resolve outer') := by
  obtain ⟨lines, lines', hlines, hlines', hflat⟩ := exists_lines hread h
  have horigin : r.ungrouped.origin = r'.ungrouped.origin := congrArg Rule.origin h
  have hresolve := Selector.resolve_ungrouped hflat houter
  unfold Rule.resolve
  rw [hlines, hlines', show r.origin = r'.origin from horigin]
  dsimp only
  generalize Selector.resolve lines outer = s at hresolve ⊢
  generalize Selector.resolve lines' outer' = t at hresolve ⊢
  cases hresolve with
  | some hperm => exact .ok hperm
  | none => exact .error _

/-! ## Trees -/

namespace Node

/-- Was every rule of the trees read? -/
def AreRead (nodes : List Node) : Prop :=
  ∀ p ∈ rulesOf nodes, p.1.parsed.isSome = true

/-- The trees differ at most in how their rules are divided into lines, and corresponding
rules, at any depth, have the same selectors up to the order. -/
structure Regrouped (a b : Node) : Prop where
  ungrouped : mapRules Rule.ungrouped a = mapRules Rule.ungrouped b
  selectors : List.Forall₂ (fun p q => Rule.SameSelectors p.1 q.1) (rules a) (rules b)

theorem Regrouped.ungrouped_all {nodes others : List Node}
    (h : List.Forall₂ Regrouped nodes others) :
    mapRulesOf Rule.ungrouped nodes = mapRulesOf Rule.ungrouped others := by
  induction h with
  | nil => rfl
  | cons hnode _ ih => rw [mapRulesOf, mapRulesOf, hnode.ungrouped, ih]

theorem Regrouped.selectors_all {nodes others : List Node}
    (h : List.Forall₂ Regrouped nodes others) :
    List.Forall₂ (fun p q => Rule.SameSelectors p.1 q.1) (rulesOf nodes) (rulesOf others) := by
  induction h with
  | nil => exact .nil
  | cons hnode _ ih =>
    rw [rulesOf, rulesOf]
    exact List.rel_append hnode.selectors ih

/-- Rules with the same selectors up to the order are regrouped if their children are. -/
theorem Regrouped.rule {r r' : Rule} {children others : List Node} (h : r.ungrouped = r'.ungrouped)
    {s t : Selector.Resolved} (hperm : s.flatten.Perm t.flatten)
    (hchildren : List.Forall₂ Regrouped children others) :
    Regrouped (.rule { r with resolved := some s } children)
      (.rule { r' with resolved := some t } others) where
  ungrouped := by
    rw [mapRules, mapRules]
    exact congrArg₂ Node.rule h (ungrouped_all hchildren)
  selectors := .cons ⟨s, t, rfl, rfl, hperm⟩ (selectors_all hchildren)

mutual

theorem resolve_ungrouped {outer outer' : Option Selector.Resolved}
    (houter : Selector.SameOuter outer outer') : ∀ {node other : Node},
    (∀ p ∈ rules node, p.1.parsed.isSome = true) →
      mapRules Rule.ungrouped node = mapRules Rule.ungrouped other →
        Alike Regrouped (resolve outer node) (resolve outer' other)
  | rule r children, rule r' others, hread, h => by
    rw [rules, List.forall_mem_cons] at hread
    rw [mapRules, mapRules, Node.rule.injEq] at h
    rw [resolve, resolve]
    -- the selectors of the rule are what its children are resolved in
    refine (Rule.resolve_ungrouped hread.1 h.1 houter).bind fun s t hperm => ?_
    refine (resolveAll_ungrouped (.some hperm) hread.2 h.2).bind fun results results' hresults => ?_
    exact .ok (.rule h.1 hperm hresults)
  | declaration d, declaration d', _, h => by
    cases h
    exact .ok ⟨rfl, .nil⟩
  | directive d, directive d', _, h => by
    cases h
    exact .ok ⟨rfl, .nil⟩
  | block d children, block d' others, hread, h => by
    rw [mapRules, mapRules, Node.block.injEq] at h
    obtain ⟨rfl, h⟩ := h
    rw [resolve, resolve]
    -- what is in the block has no selectors around it, on either side
    refine (resolveAll_ungrouped .none hread h).bind fun results results' hresults => ?_
    exact .ok ⟨by rw [mapRules, mapRules, Regrouped.ungrouped_all hresults],
      Regrouped.selectors_all hresults⟩
  | sheet path children, sheet path' others, _, h => by
    cases h
    exact .error _

/-- Trees that differ only in the division into lines are resolved to the same selectors up
to the order, or fail in the same way. -/
theorem resolveAll_ungrouped {outer outer' : Option Selector.Resolved}
    (houter : Selector.SameOuter outer outer') : ∀ {nodes others : List Node}, AreRead nodes →
      mapRulesOf Rule.ungrouped nodes = mapRulesOf Rule.ungrouped others →
        Alike (List.Forall₂ Regrouped) (resolveAll outer nodes) (resolveAll outer' others)
  | [], [], _, _ => .ok .nil
  | node :: nodes, other :: others, hread, h => by
    rw [AreRead, rulesOf, List.forall_mem_append] at hread
    rw [mapRulesOf, mapRulesOf, List.cons.injEq] at h
    rw [resolveAll, resolveAll]
    refine (resolve_ungrouped houter hread.1 h.1).bind fun a b hab => ?_
    refine (resolveAll_ungrouped houter hread.2 h.2).bind fun results results' hresults => ?_
    exact .ok (.cons hab hresults)

end

/-- Every rule of a prepared tree was read. -/
theorem areRead_prepareAll {env : Environment} {nodes prepared : List Node}
    (h : prepareAll env nodes = .ok prepared) : AreRead prepared :=
  @prepareAll_rules env (fun _ => True) (fun r => r.parsed.isSome = true) (fun _ _ _ _ => rfl) _ _ h
    fun _ _ => trivial

end Node

/-! ## Lines do not matter -/

/-- **Breaking a selector list over lines never changes which selectors a rule gets.**
Rules with the same alternatives in the same order, inside rules with the same selectors
up to the order, are resolved to the same selectors up to the order.  So are the rules at
any depth of two prepared trees that differ only in how the alternatives are divided into
lines, unless both fail to resolve, and then with the same error. -/
theorem resolve_regrouped :
    (∀ {lines lines' : List Selector.Line} {outer outer' : Selector.Resolved},
      lines.flatten = lines'.flatten → outer.flatten.Perm outer'.flatten →
        ∃ s t, Selector.resolve lines (some outer) = some s
          ∧ Selector.resolve lines' (some outer') = some t ∧ s.flatten.Perm t.flatten)
    ∧ (∀ {nodes others : List Node} {outer outer' : Option Selector.Resolved},
      Selector.SameOuter outer outer' → Node.AreRead nodes →
        Node.mapRulesOf Rule.ungrouped nodes = Node.mapRulesOf Rule.ungrouped others →
          (∃ e, Node.resolveAll outer nodes = .error e ∧ Node.resolveAll outer' others = .error e)
            ∨ ∃ results results', Node.resolveAll outer nodes = .ok results
              ∧ Node.resolveAll outer' others = .ok results'
              ∧ List.Forall₂ Node.Regrouped results results')
    ∧ ∀ {env : Environment} {nodes prepared : List Node},
      Node.prepareAll env nodes = .ok prepared → Node.AreRead prepared := by
  refine ⟨fun {lines lines' outer outer'} hlines houter => ?_, fun houter hread h => ?_,
    Node.areRead_prepareAll⟩
  · exact ⟨_, _, Selector.resolve_some lines outer, Selector.resolve_some lines' outer',
      Selector.resolveIn_ungrouped hlines houter⟩
  · exact (Node.resolveAll_ungrouped houter hread h).cases

/-- Two rules that are divided into lines in opposite ways: the selectors of the inner one
come in another order. -/
theorem resolve_regrouped_inner :
    let written : List Node :=
      [.rule { lines := ["a, b".toList] } [.rule { lines := ["&c,".toList, ['d']] } []]]
    let written' : List Node :=
      [.rule { lines := ["a,".toList, ['b']] } [.rule { lines := ["&c, d".toList] } []]]
    ∃ nodes others results results', Node.prepareAll {} written = .ok nodes
      ∧ Node.prepareAll {} written' = .ok others
      ∧ Node.resolveAll none nodes = .ok results ∧ Node.resolveAll none others = .ok results'
      ∧ (Node.rulesOf results).map (·.1.resolved)
        = [some [["a".toList, "b".toList]],
          some [["ac".toList, "bc".toList], ["a d".toList, "b d".toList]]]
      ∧ (Node.rulesOf results').map (·.1.resolved)
        = [some [["a".toList], ["b".toList]],
          some [["ac".toList, "a d".toList], ["bc".toList, "b d".toList]]]
      ∧ List.Forall₂ Node.Regrouped results results' := by
  intro written written'
  let outer : Selector.Line := [[.literal ['a']], [.literal ['b']]]
  let inner : Selector.Line := [[.parent, .literal ['c']], [.literal ['d']]]
  let nodes : List Node := [.rule { lines := ["a, b".toList], parsed := some [outer] }
    [.rule { lines := ["&c,".toList, ['d']], parsed := some (inner.map ([·])) } []]]
  let others : List Node := [.rule { lines := ["a,".toList, ['b']], parsed := some (outer.map ([·])) }
    [.rule { lines := ["&c, d".toList], parsed := some [inner] } []]]
  have hprepared : Node.prepareAll {} written = .ok nodes := by cbv
  have hprepared' : Node.prepareAll {} written' = .ok others := by cbv
  have hsame : Node.mapRulesOf Rule.ungrouped nodes = Node.mapRulesOf Rule.ungrouped others := rfl
  refine ⟨nodes, others, _, _, hprepared, hprepared', rfl, rfl, rfl, rfl, ?_⟩
  obtain ⟨e, he, -⟩ | ⟨results, results', hresults, hresults', hrelated⟩ :=
    resolve_regrouped.2.1 .none (resolve_regrouped.2.2 hprepared) hsame
  · cases he
  · cases hresults
    cases hresults'
    exact hrelated

end NestedSheet
