import NestedSheet.Proofs.Indentation

/-!
# Groups of rules

The rules that take the place of a rule at base level are a group, a run of neighbours
whose last rule ends it.  Only the outermost rule sets the ends, after all the rules
inside of it are in place, so nothing that a rule said about its group before, or that an
inner rule would say, is left.

Main results:

* `endsGroups_flatten` — only the last rule of a group ends it.
* `rulesOf_flattenAll_groups` — every rule of a flat tree is in one group.
* `compile_groups` — the groups of a compiled sheet.
-/

namespace NestedSheet

namespace Node

/-- Which of the rules among some nodes end their groups. -/
def endsGroups (nodes : List Node) : List Bool :=
  (nodes.filterMap rule?).map (·.1.groupEnd)

/-- The rules at base level, whether of the sheet or of a block at any depth. -/
def baseRules (nodes : List Node) : List Node :=
  (baseLevels nodes).flatten.filter isRule

/-! ## The ends of groups -/

theorem length_endGroup (nodes : List Node) : (endGroup nodes).length = nodes.length := by
  fun_induction endGroup nodes with
  | case1 => rfl
  | case2 last => rfl
  | case3 node next nodes ih => rw [List.length_cons, List.length_cons, ih]

theorem endsGroups_endGroup {nodes : List Node} (hrules : ∀ node ∈ nodes, node.isRule = true)
    (hne : nodes ≠ []) :
    endsGroups (endGroup nodes) = List.replicate (nodes.length - 1) false ++ [true] := by
  fun_induction endGroup nodes with
  | case1 => contradiction
  | case2 last =>
    obtain ⟨r, children, rfl⟩ := isRule_iff.1 (hrules last List.mem_cons_self)
    rfl
  | case3 node next nodes ih =>
    rw [List.forall_mem_cons] at hrules
    obtain ⟨r, children, rfl⟩ := isRule_iff.1 hrules.1
    have hnext := ih hrules.2 (List.cons_ne_nil next nodes)
    show false :: endsGroups (endGroup (next :: nodes)) = _
    rw [hnext]
    rfl

/-- Of the rules that take the place of a rule at base level, only the last one ends the
group. -/
theorem endsGroups_flatten (style : Style) (r : Rule) (children : List Node)
    (hne : flatten style false (rule r children) ≠ []) :
    endsGroups (flatten style false (rule r children))
      = List.replicate ((flatten style false (rule r children)).length - 1) false ++ [true] := by
  -- the ends are set last, on what the rule leaves when it is inside of another one
  have hgroup : flatten style false (rule r children)
      = endGroup (flatten style true (rule r children)) := rfl
  have hrules : ∀ node ∈ flatten style true (rule r children), node.isRule = true :=
    fun node hnode => isRule_of_mem_flatten hnode
  rw [hgroup] at hne ⊢
  rw [length_endGroup]
  refine endsGroups_endGroup hrules ?_
  rintro hnil
  exact hne (by rw [hnil]; rfl)

/-! ## Every rule is in one group -/

theorem filterMap_rule?_flatten {style : Style} {node : Node} (h : node.isRule = false) :
    (flatten style false node).filterMap rule? = [] := by
  cases node with
  | rule r children => cases h
  | _ => rfl

/-- The rules of a flat base level are those of its groups. -/
theorem filterMap_rule?_flattenAll (style : Style) (level : List Node) :
    (flattenAll style false level).filterMap rule?
      = (level.filter isRule).flatMap fun base => (flatten style false base).filterMap rule? := by
  induction level with
  | nil => rfl
  | cons node level ih =>
    rw [flattenAll, List.filterMap_append, ih, List.filter_cons]
    split
    · rw [List.flatMap_cons]
    · next hrule =>
      rw [filterMap_rule?_flatten (by simpa using hrule), List.nil_append]

/-- **Every rule of a flat tree is in one group**, that of a rule at base level. -/
theorem rulesOf_flattenAll_groups (style : Style) (nodes : List Node) :
    (rulesOf (flattenAll style false nodes)).Perm
      ((baseRules nodes).flatMap fun base => (flatten style false base).filterMap rule?) := by
  have hlevels := rulesOf_flattenAll_baseLevels style nodes
  rw [List.flatMap_congr fun level _ => nestedOf_flattenAll style level,
    List.flatMap_congr fun level _ => filterMap_rule?_flattenAll style level] at hlevels
  rwa [baseRules, List.filter_flatten, ← List.flatMap_def, List.flatMap_assoc]

/-! ## Inside of a rule -/

theorem copy_of_isKept (style : Style) (t : Trail) :
    (t.copy style).map (fun p => (p.1.unplaced, p.1.groupEnd))
      = if t.children.any isOwn then some (t.rule.unplaced, t.rule.groupEnd) else none := by
  unfold Trail.copy
  split <;> rfl

/-- Inside of a rule, every rule says what it said before about its group. -/
theorem endsGroups_enclosed (style : Style) (node : Node) :
    ((flatten style true node).filterMap rule?).map (fun p => (p.1.unplaced, p.1.groupEnd))
      = ((nested node).filter fun p => p.2.any isOwn).map
        fun p => (p.1.unplaced, p.1.groupEnd) := by
  -- the copy of a trail differs from its rule in the depth only
  rw [rules_flatten, ← pair_trails [] node]
  induction trails [] node with
  | nil => rfl
  | cons t trails ih =>
    rw [List.map_filterMap] at ih ⊢
    rw [List.filterMap_cons, copy_of_isKept, ih, List.map_cons, List.filter_cons]
    show _ = List.map _ (if t.children.any isOwn = true then _ else _)
    cases t.children.any isOwn <;> rfl

end Node

/-! ## A whole sheet -/

/-- **The ends of groups.**  Let a sheet compile.  Each base level of the result is one of
the resolved sheet, with every node replaced where it stands, so what takes the place of a
rule is a run of neighbours.  These runs consist of rules, the last of which ends its group
and no other does, whatever the rules said before; and every rule of the result is in one
run.  Inside of a rule, however, the rules keep what they said about their groups, and only
the groups in directives are ended. -/
theorem compile_groups {options : Options} {sheet flat : Sheet}
    (h : sheet.compile options = .ok flat) :
    ∃ nodes, sheet.resolved options.environment = .ok nodes
      ∧ flat.children = nodes.flatMap (Node.flatten options.style false)
      ∧ (Node.contentsOf flat.children).Perm ((Node.contentsOf nodes).map fun level =>
        level.flatMap (Node.flatten options.style false))
      ∧ (∀ r children, let run := Node.flatten options.style false (.rule r children)
        (∀ node ∈ run, node.isRule = true)
        ∧ (run ≠ [] → Node.endsGroups run = List.replicate (run.length - 1) false ++ [true]))
      ∧ (Node.rulesOf flat.children).Perm ((Node.baseRules nodes).flatMap fun base =>
        (Node.flatten options.style false base).filterMap Node.rule?)
      ∧ ∀ node,
        ((Node.flatten options.style true node).filterMap Node.rule?).map
            (fun p => (p.1.unplaced, p.1.groupEnd))
          = ((Node.nested node).filter fun p => p.2.any Node.isOwn).map
            (fun p => (p.1.unplaced, p.1.groupEnd))
        ∧ (Node.contentsOf (Node.flatten options.style true node)).Perm
          ((Node.contents node).map fun level =>
            level.flatMap (Node.flatten options.style false)) := by
  obtain ⟨nodes, hnodes, rfl⟩ := Sheet.compile_eq_ok.1 h
  have hlevel : Node.flattenAll options.style false
      = fun level => level.flatMap (Node.flatten options.style false) :=
    funext fun level => Node.flattenAll_eq_flatMap options.style false level
  have hcontents := Node.contentsOf_flattenAll options.style false nodes
  have hinside := Node.contentsOf_flatten options.style true
  rw [hlevel] at hcontents hinside
  refine ⟨nodes, hnodes, congrFun hlevel nodes, ?_, fun r children => ⟨?_, ?_⟩,
    Node.rulesOf_flattenAll_groups options.style nodes,
    fun node => ⟨Node.endsGroups_enclosed options.style node, hinside node⟩⟩
  · rw [hlevel]
    exact hcontents
  · exact fun node hnode => Node.isRule_of_mem_flatten hnode
  · exact Node.endsGroups_flatten options.style r children

/-- Three groups, one of them in a directive in the middle of another one.  The rules said
otherwise before. -/
theorem compile_groups_inner :
    let inner : Node := .declaration { name := ['x'], value := ['y'] }
    let media : Node := .block { value := ['@', 'm'] }
      [.rule { lines := [['c']] } [inner, .rule { lines := [['d']] } [inner]]]
    let sheet : Sheet := { children := [
      .rule { lines := [['a']], groupEnd := true } [media, .rule { lines := [['b']] } [inner]],
      .rule { lines := [['e']] } [inner]] }
    ∃ nodes flat, sheet.compile {} = .ok flat ∧ sheet.resolved {} = .ok nodes
      ∧ (Node.rulesOf flat.children).map (fun p => (p.1.lines, p.1.groupEnd))
        = [([['a']], false), ([['c']], false), ([['d']], true), ([['b']], true), ([['e']], true)]
      ∧ (Node.rulesOf flat.children).Perm ((Node.baseRules nodes).flatMap fun base =>
        (Node.flatten .nested false base).filterMap Node.rule?) := by
  intro inner media sheet
  let ready (name : Char) (selector : Text) (groupEnd : Bool) : Rule :=
    { lines := [[name]], parsed := some [[[.literal [name]]]], resolved := some [[selector]], groupEnd }
  let deeper (r : Rule) : Rule := { r with depth := 1 }
  let flat : Sheet := { children := [
    .rule (ready 'a' ['a'] false) [.block { value := ['@', 'm'] }
      [.rule (ready 'c' ['c'] false) [inner], .rule (deeper (ready 'd' "c d".toList true)) [inner]]],
    .rule (deeper (ready 'b' "a b".toList true)) [inner],
    .rule (ready 'e' ['e'] true) [inner]] }
  have hflat : sheet.compile {} = .ok flat := by cbv
  obtain ⟨nodes, hnodes, -, -, -, hgroups, -⟩ := @compile_groups {} sheet flat hflat
  exact ⟨nodes, flat, hflat, hnodes, rfl, hgroups⟩

end NestedSheet
