import Mathlib.Data.List.Permutation
import NestedSheet.Proofs.Passes

/-!
# Flattening lists every rule once

Flattening works from the leaves up: at every rule the nodes that took the place
of its children are divided again into those that stay and the rules that move
behind it.  The listing of a rule says from the top down what comes out: the rule
with what is its own, if anything is, and then the listings of the rules among
its children.  Only the depth and the group end of a rule depend on where it is
put, so the two agree up to these.

Main results:

* `flatten_listing` — the nodes that take the place of a rule are its listing.
* `flatten_eq_nil_iff` — a rule leaves nothing exactly when neither it nor a rule
  below it, down through rules only, has anything of its own.
* `rulesOf_flattenAll` — the rules of the flat tree, at any depth, are those of the
  tree that have something of their own, each once and with just that.
* `compile_lists_rules` — a sheet whose selectors can be prepared and resolved
  compiles, and then all of this holds of it.
-/

namespace NestedSheet

/-- The rule without what says where it is put. -/
def Rule.unplaced (rule : Rule) : Rule :=
  { rule with depth := 0, groupEnd := false }

@[simp] theorem Rule.unplaced_deepen (rule : Rule) : rule.deepen.unplaced = rule.unplaced := rfl

@[simp] theorem Rule.unplaced_withGroupEnd (isEnd : Bool) (rule : Rule) :
    (rule.withGroupEnd isEnd).unplaced = rule.unplaced := rfl

namespace Node

/-! ## The reference -/

/-- What a child leaves in its rule: a declaration that has a value stays, a
directive stays with a flat block, and a rule leaves nothing. -/
def ownPart (style : Style) : Node → Option Node
  | rule .. => none
  | declaration d => if d.value = [] then none else some (declaration d)
  | block d children => some (block d (flattenAll style false children))
  | node => some node

/-- What is a rule's own among its children, in their order. -/
def own (style : Style) (children : List Node) : List Node :=
  children.filterMap (ownPart style)

mutual

/-- The rule with what is its own, if anything is, and then the listings of the
rules among its children. -/
def listing (style : Style) : Node → List Node
  | rule r children =>
    (if own style children = [] then [] else [rule r (own style children)])
      ++ listingAll style children
  | _ => []

/-- The listings of the rules among some nodes, one after the other. -/
def listingAll (style : Style) : List Node → List Node
  | [] => []
  | node :: nodes => listing style node ++ listingAll style nodes

end

mutual

/-- The rules of a tree at any depth, each with its children; no stage goes into
a sheet. -/
def rules : Node → List (Rule × List Node)
  | rule r children => (r, children) :: rulesOf children
  | block _ children => rulesOf children
  | _ => []

/-- The rules of a list of trees at any depth, each with its children. -/
def rulesOf : List Node → List (Rule × List Node)
  | [] => []
  | node :: nodes => rules node ++ rulesOf nodes

end

/-- A rule with what is its own, if anything is. -/
def withOwn (style : Style) (p : Rule × List Node) : Option (Rule × List Node) :=
  if own style p.2 = [] then none else some (p.1.unplaced, own style p.2)

mutual

/-- The rules of a tree down through rules only, each with its children. -/
def nested : Node → List (Rule × List Node)
  | rule r children => (r, children) :: nestedOf children
  | _ => []

/-- The rules of a list of trees down through rules only, each with its children. -/
def nestedOf : List Node → List (Rule × List Node)
  | [] => []
  | node :: nodes => nested node ++ nestedOf nodes

end

/-! ## Where a rule is put -/

/-- The node without what says where it is put, if it is a rule. -/
def unplacedTop (node : Node) : Node :=
  node.mapRule Rule.unplaced

@[simp] theorem isRule_unplacedTop (node : Node) : node.unplacedTop.isRule = node.isRule :=
  isRule_mapRule ..

theorem unplacedTop_endGroup (nodes : List Node) :
    (endGroup nodes).map unplacedTop = nodes.map unplacedTop := by
  fun_induction endGroup nodes with
  | case1 => rfl
  | case2 last => cases last <;> rfl
  | case3 node next nodes ih =>
    rw [List.map_cons, List.map_cons, ih]
    cases node <;> rfl

theorem unplacedTop_deepen (nodes : List Node) :
    (nodes.map (mapRule Rule.deepen)).map unplacedTop = nodes.map unplacedTop := by
  rw [List.map_map]
  apply List.map_congr_left
  intro node _
  cases node <;> rfl

theorem unplacedTop_flattenRule (style : Style) (enclosed : Bool) (r : Rule)
    (children : List Node) :
    (flattenRule style enclosed r children).map unplacedTop
      = (splice style r children).map unplacedTop := by
  unfold flattenRule
  split
  · rfl
  · exact unplacedTop_endGroup _

/-- A rule keeps its own children and is followed by the rules among them. -/
theorem unplacedTop_splice (style : Style) (r : Rule) (children : List Node) :
    (splice style r children).map unplacedTop
      = (if children.filter isOwn = [] then [] else [rule r.unplaced (children.filter isOwn)])
        ++ (children.filter isRule).map unplacedTop := by
  unfold splice
  simp only [List.isEmpty_iff]
  -- the nested style also indents the rules behind, which is a matter of place
  by_cases hown : children.filter isOwn = []
  · rw [if_pos hown, if_pos hown, List.nil_append]
  · rw [if_neg hown, if_neg hown]
    by_cases hstyle : style = .nested
    · rw [if_pos hstyle, List.map_cons, unplacedTop_deepen]
      rfl
    · rw [if_neg hstyle]
      rfl

/-! ## What takes the place of a rule -/

theorem isRule_of_mem_splice {style : Style} {r : Rule} {children : List Node} {node : Node}
    (h : node ∈ splice style r children) : node.isRule = true := by
  have hmem : unplacedTop node ∈ (splice style r children).map unplacedTop :=
    List.mem_map_of_mem h
  rw [unplacedTop_splice, List.mem_append] at hmem
  -- being a rule is no matter of place
  rw [← isRule_unplacedTop node]
  rcases hmem with hmem | hmem
  · split at hmem
    · simp at hmem
    · rw [List.mem_singleton] at hmem
      rw [hmem]
      rfl
  · obtain ⟨other, hother, heq⟩ := List.mem_map.1 hmem
    rw [← heq, isRule_unplacedTop]
    exact (List.mem_filter.1 hother).2

/-- Only rules take the place of a rule. -/
theorem isRule_of_mem_flatten {style : Style} {enclosed : Bool} {r : Rule}
    {children : List Node} {node : Node} (h : node ∈ flatten style enclosed (rule r children)) :
    node.isRule = true := by
  have hmem : unplacedTop node ∈ (flatten style enclosed (rule r children)).map unplacedTop :=
    List.mem_map_of_mem h
  rw [flatten, unplacedTop_flattenRule] at hmem
  obtain ⟨other, hother, heq⟩ := List.mem_map.1 hmem
  rw [← isRule_unplacedTop node, ← heq, isRule_unplacedTop]
  exact isRule_of_mem_splice hother

/-- What stays in the rule around a node once the node is flattened. -/
theorem filter_isOwn_flatten (style : Style) (node : Node) :
    (flatten style true node).filter isOwn = (ownPart style node).toList := by
  cases node with
  | rule r children =>
    rw [ownPart, Option.toList_none, List.filter_eq_nil_iff]
    intro node hnode
    simp [isOwn, isRule_of_mem_flatten hnode]
  | declaration d =>
    by_cases hvalue : d.value = []
    · simp [flatten, ownPart, isOwn, isRule, visible, hvalue]
    · simp [flatten, ownPart, isOwn, isRule, visible, hvalue]
  | directive d => rfl
  | block d children => simp [flatten, ownPart, isOwn, isRule, visible]
  | sheet path children => rfl

/-- What stays in a rule once its children are flattened is its own. -/
theorem filter_isOwn_flattenAll (style : Style) (nodes : List Node) :
    (flattenAll style true nodes).filter isOwn = own style nodes := by
  induction nodes with
  | nil => rfl
  | cons node nodes ih =>
    rw [flattenAll, List.filter_append, filter_isOwn_flatten, ih, own, own, List.filterMap_cons]
    cases ownPart style node <;> rfl

mutual

/-- The rules among the nodes that take the place of a node are its listing. -/
theorem filter_isRule_flatten (style : Style) (enclosed : Bool) : ∀ node : Node,
    ((flatten style enclosed node).filter isRule).map unplacedTop
      = (listing style node).map unplacedTop
  | rule r children => by
    -- what the rule leaves are rules only; its own part comes first, then what the
    -- rules among its children leave, which is their listing by induction
    have hrules : (flatten style enclosed (rule r children)).filter isRule
        = flatten style enclosed (rule r children) :=
      List.filter_eq_self.2 fun node hnode => isRule_of_mem_flatten hnode
    rw [hrules, flatten, unplacedTop_flattenRule, unplacedTop_splice, filter_isOwn_flattenAll,
      filter_isRule_flattenAll style true children, listing, List.map_append]
    split <;> rfl
  | declaration _ => rfl
  | directive _ => rfl
  | block _ _ => by simp [flatten, listing, isRule]
  | sheet _ _ => rfl

theorem filter_isRule_flattenAll (style : Style) (enclosed : Bool) : ∀ nodes : List Node,
    ((flattenAll style enclosed nodes).filter isRule).map unplacedTop
      = (listingAll style nodes).map unplacedTop
  | [] => rfl
  | node :: nodes => by
    rw [flattenAll, listingAll, List.filter_append, List.map_append, List.map_append,
      filter_isRule_flatten style enclosed node, filter_isRule_flattenAll style enclosed nodes]

end

/-- The nodes that take the place of a rule are its listing. -/
theorem flatten_listing (style : Style) (enclosed : Bool) (r : Rule) (children : List Node) :
    (flatten style enclosed (rule r children)).map unplacedTop
      = (listing style (rule r children)).map unplacedTop := by
  rw [← filter_isRule_flatten style enclosed,
    List.filter_eq_self.2 fun node hnode => isRule_of_mem_flatten hnode]

/-! ## Rules that leave nothing -/

theorem ownPart_eq_none_iff (style : Style) (node : Node) : ownPart style node = none ↔
    node.isRule = true ∨ node.isDeclaration = true ∧ node.visible = false := by
  cases node with
  | rule r children => simp [ownPart, isRule]
  | declaration d => simp [ownPart, isRule, isDeclaration, visible]
  | directive d => simp [ownPart, isRule, isDeclaration]
  | block d children => simp [ownPart, isRule, isDeclaration]
  | sheet path children => simp [ownPart, isRule, isDeclaration]

theorem own_eq_nil_iff (style : Style) (children : List Node) : own style children = [] ↔
    ∀ child ∈ children, child.isRule = true ∨ child.isDeclaration = true ∧ child.visible = false := by
  rw [own, List.filterMap_eq_nil_iff]
  exact forall₂_congr fun child _ => ownPart_eq_none_iff style child

mutual

theorem listing_eq_nil_iff (style : Style) : ∀ node : Node,
    listing style node = [] ↔ ∀ p ∈ nested node, own style p.2 = []
  | rule r children => by
    rw [listing, nested, List.append_eq_nil_iff, listingAll_eq_nil_iff style children,
      List.forall_mem_cons]
    simp
  | declaration _ => by simp [listing, nested]
  | directive _ => by simp [listing, nested]
  | block _ _ => by simp [listing, nested]
  | sheet _ _ => by simp [listing, nested]

theorem listingAll_eq_nil_iff (style : Style) : ∀ nodes : List Node,
    listingAll style nodes = [] ↔ ∀ p ∈ nestedOf nodes, own style p.2 = []
  | [] => by simp [listingAll, nestedOf]
  | node :: nodes => by
    rw [listingAll, nestedOf, List.append_eq_nil_iff, listing_eq_nil_iff style node,
      listingAll_eq_nil_iff style nodes, List.forall_mem_append]

end

/-- A rule leaves nothing exactly when neither it nor a rule below it, down
through rules only, has a declaration with a value or a directive. -/
theorem flatten_eq_nil_iff (style : Style) (enclosed : Bool) (r : Rule) (children : List Node) :
    flatten style enclosed (rule r children) = [] ↔
      ∀ p ∈ nested (rule r children), ∀ child ∈ p.2,
        child.isRule = true ∨ child.isDeclaration = true ∧ child.visible = false := by
  have hlist := flatten_listing style enclosed r children
  -- from the result to the listing, and from the listing to each rule of the subtree
  calc flatten style enclosed (rule r children) = []
      ↔ (flatten style enclosed (rule r children)).map unplacedTop = [] := List.map_eq_nil_iff.symm
    _ ↔ listing style (rule r children) = [] := by rw [hlist, List.map_eq_nil_iff]
    _ ↔ ∀ p ∈ nested (rule r children), own style p.2 = [] := listing_eq_nil_iff ..
    _ ↔ _ := forall₂_congr fun p _ => own_eq_nil_iff style p.2

/-! ## Every rule once -/

/-- A rule with its children, without what says where it is put. -/
def unplacedPair (p : Rule × List Node) : Rule × List Node :=
  (p.1.unplaced, p.2)

theorem rulesOf_append (nodes others : List Node) :
    rulesOf (nodes ++ others) = rulesOf nodes ++ rulesOf others := by
  induction nodes with
  | nil => rfl
  | cons node nodes ih => rw [List.cons_append, rulesOf, rulesOf, ih, List.append_assoc]

theorem rules_unplacedTop (node : Node) :
    (rules node.unplacedTop).map unplacedPair = (rules node).map unplacedPair := by
  cases node <;> rfl

/-- Where the rules of a list are put does not matter to the rules in it. -/
theorem rulesOf_unplacedTop (nodes : List Node) :
    (rulesOf (nodes.map unplacedTop)).map unplacedPair = (rulesOf nodes).map unplacedPair := by
  induction nodes with
  | nil => rfl
  | cons node nodes ih =>
    rw [List.map_cons, rulesOf, rulesOf, List.map_append, List.map_append, ih, rules_unplacedTop]

theorem rulesOf_eq_flatMap (nodes : List Node) : rulesOf nodes = nodes.flatMap rules := by
  induction nodes with
  | nil => rfl
  | cons node nodes ih => rw [rulesOf, ih, List.flatMap_cons]

/-- Dividing a list into what stays and what moves behind loses nothing that is collected
from the nodes, if nothing is collected from declarations without a value. -/
theorem flatMap_divide {α : Type} (f : Node → List α)
    (hf : ∀ d : Declaration, d.value = [] → f (declaration d) = []) (nodes : List Node) :
    ((nodes.filter isOwn).flatMap f ++ (nodes.filter isRule).flatMap f).Perm (nodes.flatMap f) := by
  induction nodes with
  | nil => exact List.Perm.refl _
  | cons node nodes ih =>
    rw [List.flatMap_cons, List.filter_cons, List.filter_cons]
    cases hrule : node.isRule with
    | true =>
      have hown : node.isOwn = false := by simp [isOwn, hrule]
      rw [if_neg (by simp [hown]), if_pos rfl, List.flatMap_cons]
      -- the rule moves before what stays of the nodes after it
      refine List.Perm.trans ?_ (ih.append_left (f node))
      rw [← List.append_assoc, ← List.append_assoc]
      exact List.perm_append_comm.append_right _
    | false =>
      rw [if_neg Bool.false_ne_true]
      cases hvisible : node.visible with
      | true =>
        have hown : node.isOwn = true := by simp [isOwn, hrule, hvisible]
        rw [if_pos hown, List.flatMap_cons, List.append_assoc]
        exact ih.append_left (f node)
      | false =>
        -- only a declaration without a value goes
        have hown : node.isOwn = false := by simp [isOwn, hvisible]
        have hnone : f node = [] := by
          cases node with
          | declaration d => exact hf d (by simpa [visible] using hvisible)
          | _ => cases hvisible
        rw [if_neg (by simp [hown]), hnone]
        exact ih

/-- Dividing a list into what stays and what moves behind loses no rule. -/
theorem rulesOf_divide (nodes : List Node) :
    (rulesOf (nodes.filter isOwn) ++ rulesOf (nodes.filter isRule)).Perm (rulesOf nodes) := by
  rw [rulesOf_eq_flatMap, rulesOf_eq_flatMap, rulesOf_eq_flatMap]
  exact flatMap_divide rules (fun _ _ => rfl) nodes

theorem rulesOf_flattenRule (style : Style) (enclosed : Bool) (r : Rule) (children : List Node) :
    ((rulesOf (flattenRule style enclosed r children)).map unplacedPair).Perm
      ((if children.filter isOwn = [] then [] else [(r.unplaced, children.filter isOwn)])
        ++ (rulesOf children).map unplacedPair) := by
  rw [← rulesOf_unplacedTop, unplacedTop_flattenRule, unplacedTop_splice, rulesOf_append,
    List.map_append, rulesOf_unplacedTop]
  have hdivide := (rulesOf_divide children).map unplacedPair
  rw [List.map_append] at hdivide
  split
  · next hown =>
    rw [hown] at hdivide
    exact hdivide
  · rw [show rulesOf [rule r.unplaced (children.filter isOwn)]
        = (r.unplaced, children.filter isOwn) :: rulesOf (children.filter isOwn) by
      rw [rulesOf, rules, rulesOf, List.append_nil]]
    exact hdivide.cons _

mutual

/-- The rules of what takes the place of a node are those of the node that have
something of their own, each once and with just that. -/
theorem rulesOf_flatten (style : Style) (enclosed : Bool) : ∀ node : Node,
    ((rulesOf (flatten style enclosed node)).map unplacedPair).Perm
      ((rules node).filterMap (withOwn style))
  | rule r children => by
    rw [flatten, rules, List.filterMap_cons]
    refine (rulesOf_flattenRule ..).trans ?_
    -- what stays in the rule is its own, and the rules below are in order by induction
    rw [filter_isOwn_flattenAll]
    have ih := rulesOf_flattenAll style true children
    by_cases hown : own style children = []
    · simpa [withOwn, hown] using ih
    · simpa [withOwn, hown] using ih
  | declaration _ => List.Perm.refl _
  | directive _ => List.Perm.refl _
  | block _ children => by
    rw [flatten, rulesOf, rules, rulesOf, List.append_nil, rules]
    exact rulesOf_flattenAll style false children
  | sheet _ _ => List.Perm.refl _

theorem rulesOf_flattenAll (style : Style) (enclosed : Bool) : ∀ nodes : List Node,
    ((rulesOf (flattenAll style enclosed nodes)).map unplacedPair).Perm
      ((rulesOf nodes).filterMap (withOwn style))
  | [] => List.Perm.refl _
  | node :: nodes => by
    rw [flattenAll, rulesOf_append, rulesOf, List.map_append, List.filterMap_append]
    exact (rulesOf_flatten style enclosed node).append (rulesOf_flattenAll style enclosed nodes)

end

/-- A rule of a flat tree comes from a rule of the tree, and it has just what is that
rule's own, which is something. -/
theorem exists_of_mem_flattenAll {style : Style} {enclosed : Bool} {nodes : List Node}
    {p : Rule × List Node} (hp : p ∈ rulesOf (flattenAll style enclosed nodes)) :
    ∃ q ∈ rulesOf nodes, p.1.unplaced = q.1.unplaced ∧ p.2 = own style q.2 ∧ p.2 ≠ [] := by
  have hmem : unplacedPair p ∈ (rulesOf nodes).filterMap (withOwn style) :=
    (rulesOf_flattenAll style enclosed nodes).mem_iff.1 (List.mem_map_of_mem hp)
  obtain ⟨q, hq, heq⟩ := List.mem_filterMap.1 hmem
  unfold withOwn at heq
  split at heq
  · cases heq
  · next hne =>
    obtain ⟨hrule, hown⟩ := Prod.mk.inj (Option.some.inj heq)
    exact ⟨q, hq, hrule.symm, hown.symm, fun hnil => hne (hown.trans hnil)⟩

theorem isOwn_iff {node : Node} :
    node.isOwn = true ↔ node.isRule = false ∧ node.visible = true := by
  simp only [isOwn, Bool.and_eq_true, Bool.not_eq_true']

theorem isOwn_of_mem_own {style : Style} {children : List Node} {child : Node}
    (h : child ∈ own style children) : child.isOwn = true := by
  rw [← filter_isOwn_flattenAll] at h
  exact (List.mem_filter.1 h).2

/-- No rule of a flat tree has a rule among its children, and each has a child
that is visible. -/
theorem rulesOf_flattenAll_own {style : Style} {enclosed : Bool} {nodes : List Node}
    {p : Rule × List Node} (hp : p ∈ rulesOf (flattenAll style enclosed nodes)) :
    (∀ child ∈ p.2, child.isRule = false) ∧ ∃ child ∈ p.2, child.visible = true := by
  obtain ⟨q, -, -, hown, hne⟩ := exists_of_mem_flattenAll hp
  have hall : ∀ child ∈ p.2, child.isRule = false ∧ child.visible = true :=
    fun child hchild => isOwn_iff.1 (isOwn_of_mem_own (hown ▸ hchild))
  obtain ⟨child, hchild⟩ := List.exists_mem_of_ne_nil p.2 hne
  exact ⟨fun child hchild => (hall child hchild).1, child, hchild, (hall child hchild).2⟩

end Node

/-! ## A whole sheet -/

/-- **Flattening loses, repeats and re-parents nothing.**  Let a sheet be prepared
and resolved.  Then, in every style, what takes the place of a rule of it is the
listing of the rule; it is nothing exactly when no rule of the listing has a
declaration with a value or a directive.  The sheet compiles, no rule of the
result has a rule as a child, each has a visible one, and the rules of the result
are the rules with something of their own, each once, with the selectors it had
and with just that. -/
theorem compile_lists_rules {options : Options} {sheet : Sheet} {prepared resolved : List Node}
    (hprepared : Node.prepareAll options.environment sheet.children = .ok prepared)
    (hresolved : Node.resolveAll none prepared = .ok resolved) :
    (∀ (style : Style) (enclosed : Bool), ∀ p ∈ Node.rulesOf resolved,
      (Node.flatten style enclosed (.rule p.1 p.2)).map Node.unplacedTop
          = (Node.listing style (.rule p.1 p.2)).map Node.unplacedTop
        ∧ (Node.flatten style enclosed (.rule p.1 p.2) = [] ↔
          ∀ q ∈ Node.nested (.rule p.1 p.2), ∀ child ∈ q.2,
            child.isRule = true ∨ child.isDeclaration = true ∧ child.visible = false))
    ∧ ∃ flat, sheet.compile options = .ok flat
      ∧ (∀ p ∈ Node.rulesOf flat.children,
        (∀ child ∈ p.2, child.isRule = false) ∧ ∃ child ∈ p.2, child.visible = true)
      ∧ ((Node.rulesOf flat.children).map Node.unplacedPair).Perm
        ((Node.rulesOf resolved).filterMap (Node.withOwn options.style)) := by
  refine ⟨fun style enclosed p _ => ⟨Node.flatten_listing .., Node.flatten_eq_nil_iff ..⟩,
    { sheet with children := Node.flattenAll options.style false resolved }, ?_, ?_, ?_⟩
  · rw [Sheet.compile_eq, Sheet.resolved, hprepared]
    show (Node.resolveAll none prepared).map _ = _
    rw [hresolved]
    rfl
  · exact fun p hp => Node.rulesOf_flattenAll_own hp
  · exact Node.rulesOf_flattenAll ..

/-- A rule that holds a rule between what is its own, and one with nothing. -/
theorem compile_lists_rules_nested :
    let inner : Node := .declaration { name := ['x'], value := ['y'] }
    let media : Node := .block { value := ['@', 'm'] } [.rule { lines := [['c']] } [inner]]
    let sheet : Sheet := { children :=
      [.rule { lines := [['a']] } [media, .rule { lines := [['b']] } [inner], inner],
        .rule { lines := [['d']] } []] }
    ∃ prepared resolved, Node.prepareAll {} sheet.children = .ok prepared
      ∧ Node.resolveAll none prepared = .ok resolved
      ∧ ∃ flat, sheet.compile {} = .ok flat
        ∧ ((Node.rulesOf flat.children).map Node.unplacedPair).Perm
          ((Node.rulesOf resolved).filterMap (Node.withOwn .nested)) := by
  intro inner media sheet
  let ready (name : Char) (selector : Text) : Rule :=
    { lines := [[name]], parsed := some [[[.literal [name]]]], resolved := some [[selector]] }
  let unresolved (name : Char) : Rule := { ready name [] with resolved := none }
  let prepared : List Node :=
    [.rule (unresolved 'a') [.block { value := ['@', 'm'] } [.rule (unresolved 'c') [inner]],
      .rule (unresolved 'b') [inner], inner], .rule (unresolved 'd') []]
  let resolved : List Node :=
    [.rule (ready 'a' ['a']) [.block { value := ['@', 'm'] } [.rule (ready 'c' ['c']) [inner]],
      .rule (ready 'b' ['a', ' ', 'b']) [inner], inner], .rule (ready 'd' ['d']) []]
  have hprepared : Node.prepareAll {} sheet.children = .ok prepared := by cbv
  have hresolved : Node.resolveAll none prepared = .ok resolved := by cbv
  obtain ⟨-, flat, hflat, -, hperm⟩ :=
    @compile_lists_rules {} sheet prepared resolved hprepared hresolved
  exact ⟨prepared, resolved, hprepared, hresolved, flat, hflat, hperm⟩

/-- A directive alone keeps its rule: a rule can leave a node although no rule of
its subtree has a declaration. -/
theorem flatten_keeps_directive :
    let sheet : Sheet := { children :=
      [.rule { lines := [['a']] } [.directive { value := "@import x".toList }]] }
    ∃ r children, sheet.resolved {} = .ok [.rule r children]
      ∧ (∀ q ∈ Node.nested (.rule r children), ∀ child ∈ q.2, child.isDeclaration = false)
      ∧ Node.flatten .nested false (.rule r children) ≠ [] := by
  intro sheet
  refine ⟨{ lines := [['a']], parsed := some [[[.literal ['a']]]], resolved := some [[['a']]] },
    [.directive { value := "@import x".toList }], by cbv, ?_, ?_⟩
  · intro q hq child hchild
    simp only [Node.nested, Node.nestedOf, List.append_nil, List.mem_singleton] at hq
    rw [hq, List.mem_singleton] at hchild
    rw [hchild]
    rfl
  · simp [Node.flatten, Node.flattenAll, Node.flattenRule, Node.splice, Node.endGroup,
      Node.isOwn, Node.isRule, Node.visible]

end NestedSheet
