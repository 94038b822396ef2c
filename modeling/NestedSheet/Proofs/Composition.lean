import Mathlib.Data.List.Basic
import NestedSheet.Compile

/-!
# Nested rules compose

A rule inside a rule inside a third one is resolved in two steps, each of which
combines lines with lines and selectors with alternatives.  The two inner rules
can also be put together first, as tokens: the alternative of the inner rule gets
the tokens of the outer one in the place of its parent markers, where one that
has no marker counts as a descendant.  Both ways give the same lines, with the
same selectors in the same order.

Main results:

* `Alternative.inside_inside` — one selector and two alternatives.
* `resolveIn_compose` — a whole enclosing rule and two rules.
* `resolve_nested_eq_compose` — a chain of nested rules of any length.
-/

namespace NestedSheet.Selector

/-! ## Putting alternatives together -/

namespace Alternative

/-- The alternative with a marker for the enclosing rule: one that has none is a
descendant. -/
def marked (tokens : Alternative) : Alternative :=
  if tokens.hasParent then tokens else .parent :: .literal [' '] :: tokens

/-- The alternative with other tokens in the place of its markers. -/
def plug (outer tokens : Alternative) : Alternative :=
  tokens.flatMap fun token => if token = .parent then outer else [token]

/-- The alternative inside another one, as tokens. -/
def compose (outer inner : Alternative) : Alternative :=
  plug outer.marked inner.marked

theorem mem_marked (tokens : Alternative) : .parent ∈ tokens.marked := by
  unfold marked
  split
  · next h => exact List.contains_iff_mem.1 h
  · exact List.mem_cons_self

theorem marked_of_mem {tokens : Alternative} (h : .parent ∈ tokens) : tokens.marked = tokens :=
  if_pos (List.contains_iff_mem.2 h)

theorem mem_compose (outer inner : Alternative) : .parent ∈ compose outer inner :=
  List.mem_flatMap.2 ⟨.parent, mem_marked inner, mem_marked outer⟩

/-- The selector of an alternative is the text of its tokens with the enclosing
selector in the place of each marker. -/
theorem inside_eq (outer : Text) (tokens : Alternative) :
    tokens.inside outer
      = tokens.marked.flatMap fun token => if token = .parent then outer else token.expr := by
  unfold inside marked
  split
  · rfl
  · next h =>
    -- without a marker the tokens stand for themselves, behind the enclosing selector
    have hplain : ∀ token ∈ tokens, (if token = .parent then outer else token.expr) = token.expr := by
      intro token htoken
      refine if_neg fun heq => h ?_
      exact List.contains_iff_mem.2 (heq ▸ htoken)
    rw [List.flatMap_cons, List.flatMap_cons, if_pos rfl, if_neg nofun, List.flatMap_congr hplain]
    rfl

/-- Resolving an alternative inside a resolved one is resolving the two put
together. -/
theorem inside_inside (ancestor : Text) (outer inner : Alternative) :
    inner.inside (outer.inside ancestor) = (compose outer inner).inside ancestor := by
  rw [inside_eq, inside_eq ancestor (compose outer inner), marked_of_mem (mem_compose outer inner),
    compose, plug, List.flatMap_assoc]
  -- token by token: a marker becomes the outer alternative, all else stays
  apply List.flatMap_congr
  intro token _
  by_cases htoken : token = .parent
  · rw [if_pos htoken, if_pos htoken, inside_eq]
  · rw [if_neg htoken, if_neg htoken, List.flatMap_singleton, if_neg htoken]

end Alternative

/-! ## Putting lines and rules together -/

/-- The alternatives of a line inside another one, as tokens. -/
def Line.compose (outer inner : Line) : Line :=
  outer.flatMap fun alternative => inner.map (Alternative.compose alternative)

/-- The lines of a rule inside another one, as tokens. -/
def compose (outer inner : List Line) : List Line :=
  outer.flatMap fun line => inner.map (Line.compose line)

/-- Combining all of one list with all of a second one, and the results with all
of a third one, can be done from the other side, if it can for single items. -/
theorem cross_assoc {α β γ δ ε ζ : Type} {f : α → β → δ} {g : δ → γ → ε} {h : β → γ → ζ}
    {k : α → ζ → ε} (hfg : ∀ x y z, g (f x y) z = k x (h y z))
    (xs : List α) (ys : List β) (zs : List γ) :
    (xs.flatMap fun x => ys.map (f x)).flatMap (fun w => zs.map (g w))
      = xs.flatMap fun x => (ys.flatMap fun y => zs.map (h y)).map (k x) := by
  rw [List.flatMap_assoc]
  apply List.flatMap_congr
  intro x _
  rw [List.flatMap_map, List.map_flatMap]
  apply List.flatMap_congr
  intro y _
  rw [List.map_map]
  exact List.map_congr_left fun z _ => hfg x y z

theorem Line.inside_inside (ancestor : List Text) (outer inner : Line) :
    inner.inside (outer.inside ancestor) = (outer.compose inner).inside ancestor :=
  cross_assoc Alternative.inside_inside ancestor outer inner

/-- The selectors of a rule inside a rule with these selectors. -/
def resolveIn (ancestor : Resolved) (lines : List Line) : Resolved :=
  ancestor.flatMap fun outer => lines.map (Line.inside outer)

theorem resolve_some (lines : List Line) (ancestor : Resolved) :
    resolve lines (some ancestor) = some (resolveIn ancestor lines) := rfl

/-- Resolving a rule inside a resolved one is resolving the two put together. -/
theorem resolveIn_compose (ancestor : Resolved) (outer inner : List Line) :
    resolveIn (resolveIn ancestor outer) inner = resolveIn ancestor (compose outer inner) :=
  cross_assoc Line.inside_inside ancestor outer inner

/-! ## Chains of nested rules -/

/-- The rules of a chain resolved one level after the other are the rules put
together level after level and resolved once. -/
theorem foldl_resolveIn (ancestor : Resolved) (base : List Line) (levels : List (List Line)) :
    (base :: levels).foldl resolveIn ancestor = resolveIn ancestor (levels.foldl compose base) := by
  induction levels generalizing base with
  | nil => rfl
  | cons next levels ih =>
    calc (base :: next :: levels).foldl resolveIn ancestor
        = levels.foldl resolveIn (resolveIn (resolveIn ancestor base) next) := rfl
      _ = levels.foldl resolveIn (resolveIn ancestor (compose base next)) := by
        rw [resolveIn_compose]
      _ = resolveIn ancestor (levels.foldl compose (compose base next)) := ih (compose base next)

/-- Rules each of which stands alone in the one before it. -/
def chain : List Rule → List Node
  | [] => []
  | r :: rules => [.rule r (chain rules)]

/-- A rule that was read as these lines. -/
def readAs (p : Rule × List Line) : Rule :=
  { p.1 with parsed := some p.2 }

/-- The passes resolve a chain of rules one level after the other. -/
theorem resolveAll_chain (ancestor : Resolved) (base : Rule × List Line)
    (levels : List (Rule × List Line)) :
    ∃ done, Node.resolveAll (some ancestor) (chain ((base :: levels).map readAs)) = .ok (chain done)
      ∧ done.getLast?.bind Rule.resolved
        = some (((base :: levels).map Prod.snd).foldl resolveIn ancestor) := by
  induction levels generalizing ancestor base with
  | nil => exact ⟨[{ readAs base with resolved := some (resolveIn ancestor base.2) }], rfl, rfl⟩
  | cons next levels ih =>
    obtain ⟨done, hdone, hlast⟩ := ih (resolveIn ancestor base.2) next
    refine ⟨{ readAs base with resolved := some (resolveIn ancestor base.2) } :: done, ?_, ?_⟩
    · have hrule : (readAs base).resolve (some ancestor) = .ok (resolveIn ancestor base.2) := rfl
      rw [List.map_cons, chain, Node.resolveAll, Node.resolve, hrule]
      simp only [bind, Except.bind, hdone, Node.resolveAll, pure, Except.pure, chain]
    · -- the chain below is not empty, so its last rule is the last one of all
      have hne : done ≠ [] := by
        rintro rfl
        cases hlast
      rw [List.getLast?_cons_of_ne_nil hne, hlast]
      rfl

/-- **Nested resolution composes.**  Resolving a rule inside a resolved one gives
the lines of the two put together as tokens and resolved once.  So does resolving
a chain of rules level by level, of any length, and the innermost rule of such a
chain in a tree gets these lines. -/
theorem resolve_nested_eq_compose (ancestor : Resolved) :
    (∀ outer inner : List Line, (resolve outer (some ancestor)).bind (fun r => resolve inner (some r))
        = resolve (compose outer inner) (some ancestor))
    ∧ (∀ (base : List Line) (levels : List (List Line)),
      (base :: levels).foldlM (fun r lines => resolve lines (some r)) ancestor
        = resolve (levels.foldl compose base) (some ancestor))
    ∧ (∀ (base : Rule × List Line) (levels : List (Rule × List Line)),
      ∃ done, Node.resolveAll (some ancestor) (chain ((base :: levels).map readAs)) = .ok (chain done)
        ∧ done.getLast?.bind Rule.resolved
          = resolve ((levels.map Prod.snd).foldl compose base.2) (some ancestor)) := by
  refine ⟨fun outer inner => ?_, fun base levels => ?_, fun base levels => ?_⟩
  · rw [resolve_some, Option.bind_some, resolve_some, resolveIn_compose, resolve_some]
  · rw [resolve_some, ← foldl_resolveIn]
    exact List.foldlM_pure
  · obtain ⟨done, hdone, hlast⟩ := resolveAll_chain ancestor base levels
    refine ⟨done, hdone, ?_⟩
    rw [hlast, List.map_cons, foldl_resolveIn, resolve_some]

end NestedSheet.Selector
