import NestedSheet.Proofs.Levels
import NestedSheet.Proofs.Throughout

/-!
# How deep a rule is indented

In the nested style a rule is moved one level deeper each time that a rule around it is
kept.  This happens step by step, as what is left of a rule is handed on to the rule
around it.  The trail of a rule tells in advance how often it will happen: it is the rule
with the rules around it, and those that have something of their own count.  A directive
starts anew, so the trail ends at the next one.

Main results:

* `rules_flatten` — what is left inside of a rule are the copies of the trails, exactly.
* `rules_flatten_base` — at base level, only the ends of groups are set besides.
* `compile_depths` — the depth of every rule of a compiled sheet.
-/

namespace NestedSheet

/-! ## Trails -/

/-- A rule, with its children, and with the rules around it, from the base level down. -/
structure Trail where
  above : List (Rule × List Node)
  rule : Rule
  children : List Node

namespace Trail

/-- The rule with its children. -/
def pair (t : Trail) : Rule × List Node :=
  (t.rule, t.children)

/-- The trail inside one more rule. -/
def under (p : Rule × List Node) (t : Trail) : Trail :=
  { t with above := p :: t.above }

/-- How many levels the rule is moved deeper: in the nested style one for each rule around
it that has a directive or a declaration with a value among its children. -/
def levels (style : Style) (t : Trail) : Nat :=
  if style = .nested then t.above.countP fun p => p.2.any Node.isOwn else 0

/-- The rule where flattening puts it. -/
def placed (style : Style) (t : Trail) : Rule :=
  { t.rule with depth := t.rule.depth + t.levels style }

/-- What flattening leaves of the rule, if the rule has something of its own. -/
def copy (style : Style) (t : Trail) : Option (Rule × List Node) :=
  if t.children.any Node.isOwn then some (t.placed style, Node.own style t.children) else none

end Trail

namespace Node

mutual

/-- The trails in a tree down through rules only, which has these rules around it. -/
def trails (above : List (Rule × List Node)) : Node → List Trail
  | rule r children => ⟨above, r, children⟩ :: trailsOf (above ++ [(r, children)]) children
  | _ => []

/-- The trails in a list of trees down through rules only. -/
def trailsOf (above : List (Rule × List Node)) : List Node → List Trail
  | [] => []
  | node :: nodes => trails above node ++ trailsOf above nodes

end

mutual

theorem pair_trails (above : List (Rule × List Node)) : ∀ node : Node,
    (trails above node).map Trail.pair = nested node
  | rule r children => by
    rw [trails, nested, List.map_cons, pair_trailsOf _ children]
    rfl
  | declaration _ => rfl
  | directive _ => rfl
  | block _ _ => rfl
  | sheet _ _ => rfl

/-- The trails are those of the rules down through rules only. -/
theorem pair_trailsOf (above : List (Rule × List Node)) : ∀ nodes : List Node,
    (trailsOf above nodes).map Trail.pair = nestedOf nodes
  | [] => rfl
  | node :: nodes => by
    rw [trailsOf, nestedOf, List.map_append, pair_trails above node, pair_trailsOf above nodes]

end

mutual

theorem trails_under (p : Rule × List Node) (above : List (Rule × List Node)) : ∀ node : Node,
    trails (p :: above) node = (trails above node).map (Trail.under p)
  | rule r children => by
    rw [trails, trails, List.map_cons, ← trailsOf_under p _ children]
    rfl
  | declaration _ => rfl
  | directive _ => rfl
  | block _ _ => rfl
  | sheet _ _ => rfl

/-- One more rule around all is one more rule on each trail. -/
theorem trailsOf_under (p : Rule × List Node) (above : List (Rule × List Node)) :
    ∀ nodes : List Node, trailsOf (p :: above) nodes = (trailsOf above nodes).map (Trail.under p)
  | [] => rfl
  | node :: nodes => by
    rw [trailsOf, trailsOf, List.map_append, trails_under p above node, trailsOf_under p above nodes]

end

end Node

/-! ## One rule around -/

/-- The rule is moved one level deeper, if it is put behind a kept rule. -/
def Rule.behind (style : Style) (kept : Bool) (rule : Rule) : Rule :=
  if kept && style = .nested then rule.deepen else rule

namespace Trail

/-- A rule around another one counts if it is kept, in the nested style. -/
theorem placed_under (style : Style) (p : Rule × List Node) (t : Trail) :
    (t.under p).placed style = (t.placed style).behind style (p.2.any Node.isOwn) := by
  unfold placed levels Rule.behind under
  by_cases hstyle : style = .nested
  · simp only [if_pos hstyle, List.countP_cons]
    cases hkept : p.2.any Node.isOwn with
    | true => simp [hstyle, Rule.deepen, Int.add_assoc]
    | false => simp
  · simp [hstyle]

theorem copy_under (style : Style) (p : Rule × List Node) (t : Trail) :
    (t.under p).copy style
      = (t.copy style).map fun q => (q.1.behind style (p.2.any Node.isOwn), q.2) := by
  unfold copy
  rw [placed_under]
  show (if t.children.any Node.isOwn then _ else _) = _
  split <;> rfl

end Trail

namespace Node

/-! ## What is left inside of a rule -/

theorem isOwn_eq_false_iff {node : Node} : node.isOwn = false ↔
    node.isRule = true ∨ node.isDeclaration = true ∧ node.visible = false := by
  cases node <;> simp [isOwn, isRule, isDeclaration, visible]

theorem own_eq_nil_iff_any (style : Style) (children : List Node) :
    own style children = [] ↔ children.any isOwn = false := by
  rw [own_eq_nil_iff, List.any_eq_false]
  refine forall₂_congr fun child _ => ?_
  rw [Bool.not_eq_true, isOwn_eq_false_iff]

theorem rule?_mapRule (f : Rule → Rule) (node : Node) :
    rule? (node.mapRule f) = (rule? node).map fun p => (f p.1, p.2) := by
  cases node <;> rfl

theorem filterMap_rule?_mapRule (f : Rule → Rule) (nodes : List Node) :
    (nodes.map (mapRule f)).filterMap rule?
      = (nodes.filterMap rule?).map fun p => (f p.1, p.2) := by
  rw [List.filterMap_map, List.map_filterMap]
  exact List.filterMap_congr fun node _ => rule?_mapRule f node

theorem filterMap_rule?_filter (nodes : List Node) :
    (nodes.filter isRule).filterMap rule? = nodes.filterMap rule? := by
  rw [List.filterMap_filter]
  refine List.filterMap_congr fun node _ => ?_
  cases node <;> rfl

/-- What a rule leaves of its flat children: it comes first itself, if it is kept, and the
rules among them come behind it. -/
theorem filterMap_rule?_splice (style : Style) (r : Rule) (children : List Node) :
    (splice style r children).filterMap rule?
      = (if children.filter isOwn = [] then [] else [(r, children.filter isOwn)])
        ++ (children.filterMap rule?).map fun p =>
          (p.1.behind style (!(children.filter isOwn).isEmpty), p.2) := by
  unfold splice
  simp only
  by_cases hown : children.filter isOwn = []
  · rw [hown, List.isEmpty_nil, if_pos rfl, if_pos rfl, filterMap_rule?_filter]
    exact (List.map_id _).symm
  · have hkept : (children.filter isOwn).isEmpty = false := by simpa using hown
    have hself : rule? (rule r (children.filter isOwn)) = some (r, children.filter isOwn) := rfl
    rw [hkept, if_neg Bool.false_ne_true, if_neg hown, List.filterMap_cons_some hself,
      List.singleton_append]
    by_cases hstyle : style = .nested
    · rw [if_pos hstyle, filterMap_rule?_mapRule, filterMap_rule?_filter, hstyle]
      rfl
    · rw [if_neg hstyle, filterMap_rule?_filter]
      simp [Rule.behind, hstyle]

mutual

theorem rules_flatten (style : Style) : ∀ node : Node,
    (flatten style true node).filterMap rule? = (trails [] node).filterMap (Trail.copy style)
  | rule r children => by
    have ih := rules_flattenAll style children
    rw [flatten, flattenRule, if_pos rfl, filterMap_rule?_splice, filter_isOwn_flattenAll, ih,
      trails, List.nil_append, trailsOf_under, List.filterMap_cons, List.filterMap_map]
    -- the trails below have one more rule on them
    have hbelow : (trailsOf [] children).filterMap (Trail.copy style ∘ Trail.under (r, children))
        = ((trailsOf [] children).filterMap (Trail.copy style)).map fun p =>
          (p.1.behind style (children.any isOwn), p.2) := by
      rw [List.map_filterMap]
      exact List.filterMap_congr fun t _ => Trail.copy_under style (r, children) t
    rw [hbelow, Trail.copy]
    by_cases hown : own style children = []
    · -- the rule is dropped, and does not count for those below it
      have hnone := (own_eq_nil_iff_any style children).1 hown
      simp only [hown, hnone]
      rfl
    · -- the rule is kept: no rule is around it here, so it stays as deep as it is
      have hsome : children.any isOwn = true := by
        rwa [own_eq_nil_iff_any, Bool.not_eq_false] at hown
      have hkept : (own style children).isEmpty = false := by simpa using hown
      have hplaced : Trail.placed style ⟨[], r, children⟩ = r := by
        simp [Trail.placed, Trail.levels]
      rw [if_neg hown, hsome, hkept, hplaced]
      rfl
  | declaration _ => rfl
  | directive _ => rfl
  | block _ _ => rfl
  | sheet _ _ => rfl

/-- **Inside of a rule, the copies of the trails are left**, in their order. -/
theorem rules_flattenAll (style : Style) : ∀ nodes : List Node,
    (flattenAll style true nodes).filterMap rule? = (trailsOf [] nodes).filterMap (Trail.copy style)
  | [] => rfl
  | node :: nodes => by
    rw [flattenAll, trailsOf, List.filterMap_append, List.filterMap_append,
      rules_flatten style node, rules_flattenAll style nodes]

end

/-! ## Base levels -/

/-- The rule with its children, without what it says about its group. -/
def unended (p : Rule × List Node) : Rule × List Node :=
  (p.1.withGroupEnd false, p.2)

theorem unended_endGroup (nodes : List Node) :
    ((endGroup nodes).filterMap rule?).map unended = (nodes.filterMap rule?).map unended := by
  have hmark : ∀ (isEnd : Bool) (node : Node),
      (rule? (node.mapRule (Rule.withGroupEnd isEnd))).map unended = (rule? node).map unended := by
    intro isEnd node
    cases node <;> rfl
  simp only [List.map_filterMap]
  fun_induction endGroup nodes with
  | case1 => rfl
  | case2 last => rw [List.filterMap_cons, List.filterMap_cons, hmark]
  | case3 node next nodes ih => rw [List.filterMap_cons, List.filterMap_cons, hmark, ih]

/-- **At base level, the copies of the trails are left**, but for the ends of groups. -/
theorem rules_flatten_base (style : Style) (node : Node) :
    ((flatten style false node).filterMap rule?).map unended
      = ((trails [] node).filterMap (Trail.copy style)).map unended := by
  rw [← rules_flatten]
  cases node with
  | rule r children => exact unended_endGroup _
  | _ => rfl

theorem rules_flattenAll_base (style : Style) (nodes : List Node) :
    ((flattenAll style false nodes).filterMap rule?).map unended
      = ((trailsOf [] nodes).filterMap (Trail.copy style)).map unended := by
  induction nodes with
  | nil => rfl
  | cons node nodes ih =>
    rw [flattenAll, trailsOf, List.filterMap_append, List.filterMap_append, List.map_append,
      List.map_append, rules_flatten_base, ih]

/-- The trails of a whole tree, at any depth. -/
def allTrails (nodes : List Node) : List Trail :=
  (baseLevels nodes).flatMap (trailsOf [])

/-- Every rule of a tree has one trail. -/
theorem pair_allTrails (nodes : List Node) :
    ((allTrails nodes).map Trail.pair).Perm (rulesOf nodes) := by
  rw [allTrails, List.map_flatMap, List.flatMap_congr fun level _ => pair_trailsOf [] level]
  exact (rulesOf_baseLevels nodes).symm

/-- The rules of the flat tree are the copies of the trails. -/
theorem rulesOf_flattenAll_trails (style : Style) (nodes : List Node) :
    ((rulesOf (flattenAll style false nodes)).map unended).Perm
      (((allTrails nodes).filterMap (Trail.copy style)).map unended) := by
  have hlevels := (rulesOf_flattenAll_baseLevels style nodes).map unended
  have hlevel : ∀ level : List Node, (nestedOf (flattenAll style false level)).map unended
      = ((trailsOf [] level).filterMap (Trail.copy style)).map unended := by
    intro level
    rw [nestedOf_flattenAll, rules_flattenAll_base]
  rw [List.map_flatMap, List.flatMap_congr fun level _ => hlevel level] at hlevels
  rwa [allTrails, List.filterMap_flatMap, List.map_flatMap]

end Node

/-! ## A whole sheet -/

/-- **The depth of every rule.**  Let a sheet be prepared and resolved, which leaves the
depths as they are.  Then it compiles, and every rule of the result is the copy of a rule
that has something of its own: as deep as that one, and in the nested style one level deeper
for each rule around it, up to the next directive, that has a directive or a declaration
with a value among its children.  At base level the copies come in the order of the rules. -/
theorem compile_depths {options : Options} {sheet : Sheet} {nodes : List Node}
    (h : sheet.resolved options.environment = .ok nodes) :
    (Node.rulesOf nodes).map (·.1.depth) = (Node.rulesOf sheet.children).map (·.1.depth)
    ∧ ((Node.allTrails nodes).map Trail.pair).Perm (Node.rulesOf nodes)
    ∧ ∃ flat, sheet.compile options = .ok flat
      ∧ ((Node.rulesOf flat.children).map Node.unended).Perm
        (((Node.allTrails nodes).filterMap (Trail.copy options.style)).map Node.unended)
      ∧ ∀ r children,
        ((Node.flatten options.style false (.rule r children)).filterMap Node.rule?).map Node.unended
          = ((Node.trails [] (.rule r children)).filterMap (Trail.copy options.style)).map
            Node.unended := by
  obtain ⟨prepared, hprepared, hresolved⟩ := steps_eq_ok.1 h
  have hdepths : (Node.rulesOf nodes).map (·.1.depth)
      = (Node.rulesOf sheet.children).map (·.1.depth) :=
    (Node.map_rulesOf_resolveAll (fun _ _ => rfl) hresolved).trans
      (Node.map_rulesOf_prepareAll (fun _ _ => rfl) hprepared)
  exact ⟨hdepths, Node.pair_allTrails nodes, _, Sheet.compile_eq_ok.2 ⟨nodes, h, rfl⟩,
    Node.rulesOf_flattenAll_trails options.style nodes,
    fun r children => Node.rules_flatten_base options.style (.rule r children)⟩

/-- A rule that counts, one that does not because it has nothing of its own, and a directive
that starts anew; the depth that a rule has before is kept. -/
theorem compile_depths_mixed :
    let inner : Node := .declaration { name := ['x'], value := ['y'] }
    let media : Node := .block { value := ['@', 'm'] }
      [.rule { lines := [['c']] } [inner, .rule { lines := [['d']] } [inner]]]
    let sheet : Sheet := { children := [.rule { lines := [['a']] } [inner, media,
      .rule { lines := [['b']] } [.rule { lines := [['e']], depth := 2 } [inner]]]] }
    ∃ nodes flat, sheet.resolved {} = .ok nodes ∧ sheet.compile {} = .ok flat
      ∧ ((Node.allTrails nodes).filterMap (Trail.copy .nested)).map
        (fun p => (p.1.lines, p.1.depth))
        = [([['a']], 0), ([['e']], 3), ([['c']], 0), ([['d']], 1)]
      ∧ ((Node.rulesOf flat.children).map Node.unended).Perm
        (((Node.allTrails nodes).filterMap (Trail.copy .nested)).map Node.unended) := by
  intro inner media sheet
  let ready (name : Char) (selector : Text) : Rule :=
    { lines := [[name]], parsed := some [[[.literal [name]]]], resolved := some [[selector]] }
  let nodes : List Node := [.rule (ready 'a' ['a']) [inner,
    .block { value := ['@', 'm'] }
      [.rule (ready 'c' ['c']) [inner, .rule (ready 'd' "c d".toList) [inner]]],
    .rule (ready 'b' "a b".toList) [.rule { ready 'e' "a b e".toList with depth := 2 } [inner]]]]
  have hresolved : sheet.resolved {} = .ok nodes := by cbv
  obtain ⟨-, -, flat, hflat, hperm, -⟩ := @compile_depths {} sheet nodes hresolved
  exact ⟨nodes, flat, hresolved, hflat, rfl, hperm⟩

end NestedSheet
