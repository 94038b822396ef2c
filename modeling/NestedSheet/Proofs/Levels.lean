import NestedSheet.Proofs.Listing

/-!
# The base levels of a tree

A sheet starts at base level, and every block of a directive is a base level anew,
whatever it stands in: no rule encloses what is there.  Every rule of a tree belongs to
one base level, the one that it is reached from through rules only.

Flattening works on each base level by itself.  The nodes at a base level are replaced
where they stand, and no two base levels are mixed.

Main results:

* `rulesOf_baseLevels` — the rules of a tree are those of its base levels.
* `baseLevels_flattenAll` — the base levels of the flat tree are those of the tree,
  flattened one by one.
* `rulesOf_flattenAll_baseLevels` — so are the rules of the flat tree.
-/

namespace NestedSheet.Node

/-! ## Base levels -/

mutual

/-- What stands in the blocks of a tree, at any depth. -/
def contents : Node → List (List Node)
  | rule _ children => contentsOf children
  | block _ children => children :: contentsOf children
  | _ => []

/-- What stands in the blocks of a list of trees, at any depth. -/
def contentsOf : List Node → List (List Node)
  | [] => []
  | node :: nodes => contents node ++ contentsOf nodes

end

/-- The nodes of a sheet and what stands in its blocks: the lists of nodes that no rule
encloses. -/
def baseLevels (nodes : List Node) : List (List Node) :=
  nodes :: contentsOf nodes

theorem contentsOf_eq_flatMap (nodes : List Node) : contentsOf nodes = nodes.flatMap contents := by
  induction nodes with
  | nil => rfl
  | cons node nodes ih => rw [contentsOf, ih, List.flatMap_cons]

theorem nestedOf_eq_flatMap (nodes : List Node) : nestedOf nodes = nodes.flatMap nested := by
  induction nodes with
  | nil => rfl
  | cons node nodes ih => rw [nestedOf, ih, List.flatMap_cons]

theorem flattenAll_eq_flatMap (style : Style) (enclosed : Bool) (nodes : List Node) :
    flattenAll style enclosed nodes = nodes.flatMap (flatten style enclosed) := by
  induction nodes with
  | nil => rfl
  | cons node nodes ih => rw [flattenAll, ih, List.flatMap_cons]

/-! ## Every rule belongs to one base level -/

mutual

theorem rules_perm : ∀ node : Node,
    (rules node).Perm (nested node ++ (contents node).flatMap nestedOf)
  | rule r children => by
    rw [rules, nested, contents, List.cons_append]
    exact (rulesOf_perm children).cons _
  | block d children => by
    show (rulesOf children).Perm ((children :: contentsOf children).flatMap nestedOf)
    rw [List.flatMap_cons]
    exact rulesOf_perm children
  | declaration _ => .refl _
  | directive _ => .refl _
  | sheet _ _ => .refl _

theorem rulesOf_perm : ∀ nodes : List Node,
    (rulesOf nodes).Perm (nestedOf nodes ++ (contentsOf nodes).flatMap nestedOf)
  | [] => .refl _
  | node :: nodes => by
    rw [rulesOf, nestedOf, contentsOf, List.flatMap_append]
    refine ((rules_perm node).append (rulesOf_perm nodes)).trans ?_
    -- what is below the node moves behind the other rules at this level
    simp only [List.append_assoc]
    refine List.Perm.append_left _ ?_
    rw [← List.append_assoc, ← List.append_assoc]
    exact List.perm_append_comm.append_right _

end

/-- The rules of a tree are those that its base levels have down through rules only. -/
theorem rulesOf_baseLevels (nodes : List Node) :
    (rulesOf nodes).Perm ((baseLevels nodes).flatMap nestedOf) :=
  rulesOf_perm nodes

/-! ## Flattening keeps the base levels apart -/

theorem contents_mapRule (f : Rule → Rule) (node : Node) :
    contents (node.mapRule f) = contents node := by
  cases node <;> rfl

theorem contentsOf_map_mapRule (f : Rule → Rule) (nodes : List Node) :
    contentsOf (nodes.map (mapRule f)) = contentsOf nodes := by
  rw [contentsOf_eq_flatMap, contentsOf_eq_flatMap, List.flatMap_map]
  exact List.flatMap_congr fun node _ => contents_mapRule f node

theorem contentsOf_endGroup (nodes : List Node) : contentsOf (endGroup nodes) = contentsOf nodes := by
  fun_induction endGroup nodes with
  | case1 => rfl
  | case2 last => exact congrArg (· ++ []) (contents_mapRule _ last)
  | case3 node next nodes ih => rw [contentsOf, contentsOf, ih, contents_mapRule]

/-- What a rule leaves has the blocks that its flat children have. -/
theorem contentsOf_flattenRule (style : Style) (enclosed : Bool) (r : Rule) (children : List Node) :
    (contentsOf (flattenRule style enclosed r children)).Perm (contentsOf children) := by
  have hsplice : contentsOf (splice style r children)
      = contentsOf (children.filter isOwn) ++ contentsOf (children.filter isRule) := by
    unfold splice
    simp only
    split
    · -- a rule that is dropped has no blocks
      next hown => rw [List.isEmpty_iff.1 hown]; rfl
    · rw [contentsOf, contents]
      split
      · rw [contentsOf_map_mapRule]
      · rfl
  have hrule : contentsOf (flattenRule style enclosed r children)
      = contentsOf (splice style r children) := by
    unfold flattenRule
    split
    · rfl
    · exact contentsOf_endGroup _
  rw [hrule, hsplice, contentsOf_eq_flatMap, contentsOf_eq_flatMap, contentsOf_eq_flatMap]
  exact flatMap_divide contents (fun _ _ => rfl) children

mutual

theorem contentsOf_flatten (style : Style) (enclosed : Bool) : ∀ node : Node,
    (contentsOf (flatten style enclosed node)).Perm
      ((contents node).map (flattenAll style false))
  | rule r children => by
    rw [flatten, contents]
    exact (contentsOf_flattenRule ..).trans (contentsOf_flattenAll style true children)
  | block d children => by
    rw [flatten, contents, contentsOf, contents, contentsOf, List.append_nil, List.map_cons]
    exact (contentsOf_flattenAll style false children).cons _
  | declaration _ => .refl _
  | directive _ => .refl _
  | sheet _ _ => .refl _

/-- The blocks of the flat tree are those of the tree, flattened one by one. -/
theorem contentsOf_flattenAll (style : Style) (enclosed : Bool) : ∀ nodes : List Node,
    (contentsOf (flattenAll style enclosed nodes)).Perm
      ((contentsOf nodes).map (flattenAll style false))
  | [] => .refl _
  | node :: nodes => by
    rw [flattenAll, contentsOf, contentsOf_eq_flatMap, List.flatMap_append,
      ← contentsOf_eq_flatMap, ← contentsOf_eq_flatMap, List.map_append]
    exact (contentsOf_flatten style enclosed node).append (contentsOf_flattenAll style enclosed nodes)

end

/-- The base levels of the flat tree are those of the tree, flattened one by one. -/
theorem baseLevels_flattenAll (style : Style) (nodes : List Node) :
    (baseLevels (flattenAll style false nodes)).Perm
      ((baseLevels nodes).map (flattenAll style false)) :=
  (contentsOf_flattenAll style false nodes).cons _

/-- The rules of the flat tree are those that its base levels have, once flattened. -/
theorem rulesOf_flattenAll_baseLevels (style : Style) (nodes : List Node) :
    (rulesOf (flattenAll style false nodes)).Perm
      ((baseLevels nodes).flatMap fun level => nestedOf (flattenAll style false level)) := by
  refine (rulesOf_baseLevels _).trans ?_
  have hlevels := (baseLevels_flattenAll style nodes).flatMap_right nestedOf
  rwa [List.flatMap_map] at hlevels

/-! ## Flat base levels -/

/-- The rule with its children, if the node is one. -/
def rule? : Node → Option (Rule × List Node)
  | rule r children => some (r, children)
  | _ => none

theorem nestedOf_eq_nil {nodes : List Node} (h : ∀ node ∈ nodes, node.isRule = false) :
    nestedOf nodes = [] := by
  rw [nestedOf_eq_flatMap, List.flatMap_eq_nil_iff]
  intro node hnode
  have hrule := h node hnode
  cases node with
  | rule r children => cases hrule
  | _ => rfl

/-- At a flat base level, the rules are the nodes that are rules. -/
theorem nestedOf_flattenAll (style : Style) (level : List Node) :
    nestedOf (flattenAll style false level) = (flattenAll style false level).filterMap rule? := by
  have hflat : ∀ node ∈ flattenAll style false level, nested node = (rule? node).toList := by
    intro node hnode
    cases node with
    | rule r children =>
      -- nothing in a flat rule is a rule, so there is nothing further down
      have hmem : (r, children) ∈ rulesOf (flattenAll style false level) := by
        rw [rulesOf_eq_flatMap]
        exact List.mem_flatMap.2 ⟨_, hnode, List.mem_cons_self⟩
      rw [nested, nestedOf_eq_nil (rulesOf_flattenAll_own hmem).1]
      rfl
    | _ => rfl
  rw [nestedOf_eq_flatMap, List.flatMap_congr hflat]
  exact (List.filterMap_eq_flatMap_toList rule? _).symm

end NestedSheet.Node
