import NestedSheet.Proofs.Markers
import NestedSheet.Proofs.Passes
import NestedSheet.Proofs.References

/-!
# When a sheet cannot be compiled

Two things stop the compilation of a sheet: a variable without a value, and a parent
marker in a rule that has no enclosing rule.  The first is looked for in the whole
sheet before the second.  Where they can occur is listed by the sites of the sheet in
reading order: the lines of each rule and the value of each declaration.  The values
of directives and the names of declarations are at no site, and the marker is looked
for only in rules that stand at the top or directly in a directive.

Main results:

* `prepareAll_eq_error_iff` — the first pass fails with the first variable that has
  no value.
* `resolveAll_eq_error_iff` — the second pass fails with the first marker that has no
  enclosing rule.
* `compile_eq_error_iff` — when a sheet cannot be compiled, and why.
-/

namespace NestedSheet

/-! ## The first fault of a list -/

section FirstFault

variable {α β ε : Type} {fault : α → ε → Prop}

/-- The fault of the first element of the list that has one. -/
def FirstFault (fault : α → ε → Prop) (list : List α) (e : ε) : Prop :=
  ∃ before x after, list = before ++ x :: after ∧ (∀ y ∈ before, ∀ e', ¬ fault y e') ∧ fault x e

theorem firstFault_nil (e : ε) : ¬ FirstFault fault [] e := by
  rintro ⟨before, x, after, h, -⟩
  simp at h

/-- The fault of the first element comes before those of all others. -/
theorem firstFault_cons {x : α} {xs : List α} {e : ε} :
    FirstFault fault (x :: xs) e ↔ fault x e ∨ (∀ e', ¬ fault x e') ∧ FirstFault fault xs e := by
  constructor
  · rintro ⟨before, y, after, hlist, hbefore, hy⟩
    cases before with
    | nil =>
      obtain ⟨rfl, -⟩ := List.cons.inj hlist
      exact Or.inl hy
    | cons z before =>
      obtain ⟨rfl, rfl⟩ := List.cons.inj hlist
      obtain ⟨hz, hbefore⟩ := List.forall_mem_cons.1 hbefore
      exact Or.inr ⟨hz, before, y, after, rfl, hbefore, hy⟩
  · rintro (hx | ⟨hx, before, y, after, rfl, hbefore, hy⟩)
    · exact ⟨[], x, xs, rfl, nofun, hx⟩
    · exact ⟨x :: before, y, after, rfl, List.forall_mem_cons.2 ⟨hx, hbefore⟩, hy⟩

/-- A list has a first fault exactly if one of its elements has a fault. -/
theorem exists_firstFault {list : List α} :
    (∃ e, FirstFault fault list e) ↔ ∃ x ∈ list, ∃ e, fault x e := by
  constructor
  · rintro ⟨e, before, x, after, rfl, -, hx⟩
    exact ⟨x, List.mem_append_right before List.mem_cons_self, e, hx⟩
  · rintro ⟨x, hx, e, hfault⟩
    induction list with
    | nil => cases hx
    | cons y ys ih =>
      -- an element before `x` may have a fault as well
      by_cases hy : ∃ e', fault y e'
      · obtain ⟨e', hy⟩ := hy
        exact ⟨e', firstFault_cons.2 (Or.inl hy)⟩
      · rcases List.mem_cons.1 hx with rfl | hx
        · exact absurd ⟨e, hfault⟩ hy
        · obtain ⟨e', he'⟩ := ih hx
          exact ⟨e', firstFault_cons.2 (Or.inr ⟨not_exists.1 hy, he'⟩)⟩

theorem forall_not_firstFault {list : List α} :
    (∀ e, ¬ FirstFault fault list e) ↔ ∀ x ∈ list, ∀ e, ¬ fault x e := by
  rw [← not_exists, exists_firstFault]
  simp only [not_exists, not_and]

/-- A fault of the first list comes before those of the second one. -/
theorem firstFault_append {xs ys : List α} {e : ε} : FirstFault fault (xs ++ ys) e ↔
    FirstFault fault xs e ∨ (∀ e', ¬ FirstFault fault xs e') ∧ FirstFault fault ys e := by
  rw [forall_not_firstFault]
  induction xs with
  | nil => simp [firstFault_nil]
  | cons x xs ih =>
    rw [List.cons_append, firstFault_cons, ih, firstFault_cons, List.forall_mem_cons, and_or_left,
      or_assoc, and_assoc]

/-! ## Steps that fail -/

/-- Two steps fail where the first one does, and otherwise where the second one does,
if the second one fails alike after every result of the first one. -/
theorem steps_eq_error_iff {first : Except ε α} {second : α → Except ε β} {fails : ε → Prop}
    {later : Prop} {e : ε} (hfirst : ∀ e, first = .error e ↔ fails e)
    (hsecond : ∀ a, first = .ok a → (second a = .error e ↔ later)) :
    (do second (← first)) = .error e ↔ fails e ∨ (∀ e', ¬ fails e') ∧ later := by
  cases first with
  | error e' =>
    have hfails := (hfirst e').1 rfl
    rw [← hfirst]
    refine ⟨fun h => Or.inl (congrArg _ (Except.error.inj h)), ?_⟩
    rintro (h | ⟨hnone, -⟩)
    · exact congrArg _ (Except.error.inj h)
    · exact absurd hfails (hnone e')
  | ok a =>
    have hnone : ∀ e', ¬ fails e' := fun e' h => nomatch (hfirst e').2 h
    rw [← hsecond a rfl]
    exact ⟨fun h => Or.inr ⟨hnone, h⟩, fun h => h.elim (fun h => absurd h (hnone e)) fun h => h.2⟩

/-- A step that only puts the result together does not fail. -/
theorem map_eq_error_iff {first : Except ε α} {f : α → β} {e : ε} :
    (do pure (f (← first)) : Except ε β) = .error e ↔ first = .error e := by
  cases first with
  | error e' =>
    exact ⟨fun h => congrArg _ (Except.error.inj h), fun h => congrArg _ (Except.error.inj h)⟩
  | ok a => exact ⟨nofun, nofun⟩

/-- A step that is taken for each element fails at the first one where it does. -/
theorem mapM_eq_error_iff {f : α → Except ε β} {xs : List α} {e : ε} :
    xs.mapM f = .error e ↔ FirstFault (fun x e => f x = .error e) xs e := by
  induction xs with
  | nil => exact ⟨nofun, fun h => absurd h (firstFault_nil e)⟩
  | cons x xs ih =>
    rw [List.mapM_cons, firstFault_cons]
    exact steps_eq_error_iff (fun _ => Iff.rfl) fun y _ => map_eq_error_iff.trans ih

end FirstFault

/-! ## Sites -/

/-- The texts of a node that are interpolated. -/
structure Site where
  /-- Where the node comes from. -/
  origin : Origin
  texts : List Text
  /-- Are the texts the lines of a rule that has no enclosing rule? -/
  isBase : Bool

namespace Node

mutual

/-- The sites of a tree in reading order; `base` tells that no rule encloses it. -/
def sites (base : Bool) : Node → List Site
  | rule r children => ⟨r.origin, r.lines, base⟩ :: sitesOf false children
  | declaration d => [⟨d.origin, [d.value], false⟩]
  | directive _ => []
  | block _ children => sitesOf true children
  | sheet _ _ => []

/-- The sites of a list of trees in reading order. -/
def sitesOf (base : Bool) : List Node → List Site
  | [] => []
  | node :: nodes => sites base node ++ sitesOf base nodes

end

end Node

namespace Site

variable (env : Environment)

/-- The site refers to a variable without a value. -/
def HasUndefined (site : Site) : Prop :=
  ∃ t ∈ site.texts, NestedSheet.HasUndefined env t

/-- The error is about the leftmost variable without a value in the first text of the
site that has one, and it tells where the node comes from. -/
def UndefinedAt (site : Site) (e : CompileError) : Prop :=
  ∃ name, FirstFault (LeftmostUndefined env) site.texts name ∧ e = .undefined name site.origin

/-- The site is a rule without an enclosing rule, and a line of it has a parent marker
outside of the quotes once it is interpolated. -/
def HasUnbound (site : Site) : Prop :=
  site.isBase = true
    ∧ ∃ line ∈ site.texts, ∃ t, env.interpolate line = .ok t ∧ Selector.HasMarker t

/-- The error is about a parent marker in this rule, and it tells where the rule comes
from. -/
def UnboundAt (site : Site) (e : CompileError) : Prop :=
  site.HasUnbound env ∧ e = .unboundParent site.origin

variable {env}

theorem exists_undefinedAt {site : Site} : (∃ e, site.UndefinedAt env e) ↔ site.HasUndefined env := by
  have hleft : ∀ t, (∃ name, LeftmostUndefined env t name) ↔ NestedSheet.HasUndefined env t := by
    intro t
    rw [← interpolate_fails_iff]
    exact exists_congr fun name => interpolate_eq_error_iff.symm
  constructor
  · rintro ⟨e, name, hfirst, -⟩
    obtain ⟨t, ht, name', hname'⟩ := exists_firstFault.1 ⟨name, hfirst⟩
    exact ⟨t, ht, (hleft t).1 ⟨name', hname'⟩⟩
  · rintro ⟨t, ht, hundefined⟩
    obtain ⟨name, hfirst⟩ := exists_firstFault.2 ⟨t, ht, (hleft t).2 hundefined⟩
    exact ⟨_, name, hfirst, rfl⟩

theorem exists_unboundAt {site : Site} : (∃ e, site.UnboundAt env e) ↔ site.HasUnbound env :=
  ⟨fun ⟨_, h, _⟩ => h, fun h => ⟨_, h, rfl⟩⟩

theorem interpolateAt_eq_error_iff (origin : Origin) (t : Text) (e : CompileError) :
    env.interpolateAt origin t = .error e ↔
      ∃ name, LeftmostUndefined env t name ∧ e = .undefined name origin := by
  simp only [← interpolate_eq_error_iff, Environment.interpolateAt]
  cases env.interpolate t with
  | error name => simp [Except.mapError, eq_comm]
  | ok t' => simp [Except.mapError]

variable (env) in
/-- Interpolating the texts of a site fails with the error of the site. -/
theorem mapM_interpolateAt (site : Site) (e : CompileError) :
    site.texts.mapM (env.interpolateAt site.origin) = .error e ↔ site.UndefinedAt env e := by
  have hone := @interpolateAt_eq_error_iff env site.origin
  rw [mapM_eq_error_iff, UndefinedAt, FirstFault]
  constructor
  · rintro ⟨before, t, after, htexts, hbefore, ht⟩
    obtain ⟨name, hname, he⟩ := (hone t e).1 ht
    refine ⟨name, ⟨before, t, after, htexts, fun u hu other hother => ?_, hname⟩, he⟩
    exact hbefore u hu _ ((hone u _).2 ⟨other, hother, rfl⟩)
  · rintro ⟨name, ⟨before, t, after, htexts, hbefore, hname⟩, he⟩
    refine ⟨before, t, after, htexts, fun u hu other hother => ?_, (hone t e).2 ⟨name, hname, he⟩⟩
    obtain ⟨name', hname', -⟩ := (hone u other).1 hother
    exact hbefore u hu name' hname'

end Site

namespace Node

/-! ## Preparing -/

mutual

/-- Preparing a tree fails with the first variable in it that has no value. -/
theorem prepare_eq_error_iff (env : Environment) (base : Bool) : ∀ {node : Node},
    first? isSheet node = none → ∀ e, prepare env node = .error e ↔
      FirstFault (Site.UndefinedAt env) (sites base node) e
  | rule r children, hsheet, e => by
    have hlines := Site.mapM_interpolateAt env ⟨r.origin, r.lines, base⟩
    have hchildren := prepareAll_eq_error_iff env false (first?_rule_eq_none.1 hsheet).2 e
    rw [prepare, sites, firstFault_cons]
    exact steps_eq_error_iff hlines fun lines _ => map_eq_error_iff.trans hchildren
  | declaration d, _, e => by
    -- the value is interpolated by itself, not as a list of one text
    have hvalue := Site.mapM_interpolateAt env ⟨d.origin, [d.value], false⟩ e
    rw [mapM_eq_error_iff, firstFault_cons] at hvalue
    rw [prepare, sites, firstFault_cons, map_eq_error_iff, ← hvalue]
    simp only [firstFault_nil, and_false, or_false]
  | directive _, _, e => ⟨nofun, fun h => absurd h (firstFault_nil e)⟩
  | block d children, hsheet, e => by
    rw [prepare, sites, map_eq_error_iff]
    exact prepareAll_eq_error_iff env true (first?_block_eq_none.1 hsheet).2 e
  | sheet _ _, hsheet, _ => nomatch hsheet

theorem prepareAll_eq_error_iff (env : Environment) (base : Bool) : ∀ {nodes : List Node},
    firstOf? isSheet nodes = none → ∀ e, prepareAll env nodes = .error e ↔
      FirstFault (Site.UndefinedAt env) (sitesOf base nodes) e
  | [], _, e => ⟨nofun, fun h => absurd h (firstFault_nil e)⟩
  | node :: nodes, hsheet, e => by
    rw [firstOf?_eq_none, List.forall_mem_cons, ← firstOf?_eq_none] at hsheet
    have hnodes := prepareAll_eq_error_iff env base hsheet.2 e
    rw [prepareAll, sitesOf, firstFault_append]
    exact steps_eq_error_iff (prepare_eq_error_iff env base hsheet.1)
      fun prepared _ => map_eq_error_iff.trans hnodes

end

/-! ## Resolving -/

theorem interpolateAt_eq_ok_iff {env : Environment} {origin : Origin} {line t : Text} :
    env.interpolateAt origin line = .ok t ↔ env.interpolate line = .ok t :=
  mapError_eq_ok

/-- The lines of a rule that was prepared refer to an enclosing rule exactly if one of
them has a marker once it is interpolated. -/
theorem refersToParent_iff {env : Environment} {origin : Origin} {lines prepared : List Text}
    (h : lines.mapM (env.interpolateAt origin) = .ok prepared) :
    Selector.refersToParent (prepared.map Selector.parse) = true ↔
      ∃ line ∈ lines, ∃ t, env.interpolate line = .ok t ∧ Selector.HasMarker t := by
  rw [Selector.refersToParent, List.any_map, List.any_eq_true]
  constructor
  · rintro ⟨t, ht, hparent⟩
    obtain ⟨line, hline, heq⟩ := (mem_mapM h t).1 ht
    exact ⟨line, hline, t, interpolateAt_eq_ok_iff.1 heq, (Selector.hasMarker_iff t).1 hparent⟩
  · rintro ⟨line, hline, t, heq, hmarker⟩
    exact ⟨t, (mem_mapM h t).2 ⟨line, hline, interpolateAt_eq_ok_iff.2 heq⟩,
      (Selector.hasMarker_iff t).2 hmarker⟩

/-- Resolving a rule that was prepared fails on a marker that has no enclosing rule. -/
theorem resolve_prepared_eq_error_iff {env : Environment} {r : Rule} {prepared : List Text}
    (h : r.lines.mapM (env.interpolateAt r.origin) = .ok prepared)
    (outer : Option Selector.Resolved) (e : CompileError) :
    Rule.resolve outer { r with parsed := some (prepared.map Selector.parse) } = .error e ↔
      Site.UnboundAt env ⟨r.origin, r.lines, outer.isNone⟩ e := by
  have hnone : Selector.resolve (prepared.map Selector.parse) outer = none ↔
      Site.HasUnbound env ⟨r.origin, r.lines, outer.isNone⟩ := by
    rw [Selector.resolve_eq_none_iff, refersToParent_iff h, ← Option.isNone_iff_eq_none]
    rfl
  rw [Site.UnboundAt, ← hnone]
  simp only [Rule.resolve]
  cases Selector.resolve (prepared.map Selector.parse) outer with
  | none => simp [eq_comm]
  | some resolved => simp

mutual

/-- Resolving a tree that was prepared fails with the first marker in it that has no
enclosing rule. -/
theorem resolve_eq_error_iff {env : Environment} : ∀ {node prepared : Node},
    prepare env node = .ok prepared → ∀ (outer : Option Selector.Resolved) (e : CompileError),
      resolve outer prepared = .error e ↔
        FirstFault (Site.UnboundAt env) (sites outer.isNone node) e
  | rule r children, prepared, h, outer, e => by
    obtain ⟨lines, others, hlines, hothers, rfl⟩ := prepare_rule_eq_ok.1 h
    rw [resolve, sites, firstFault_cons]
    -- whatever the selectors of the rule are, the rules in it have an enclosing rule
    exact steps_eq_error_iff (resolve_prepared_eq_error_iff hlines outer)
      fun resolved _ => map_eq_error_iff.trans (resolveAll_eq_error_iff hothers (some resolved) e)
  | declaration d, prepared, h, outer, e => by
    obtain ⟨value, -, rfl⟩ := prepare_declaration_eq_ok.1 h
    rw [sites, firstFault_cons]
    simp [resolve, pure, Except.pure, Site.UnboundAt, Site.HasUnbound, firstFault_nil]
  | directive _, _, h, _, e => by
    cases h
    exact ⟨nofun, fun h => absurd h (firstFault_nil e)⟩
  | block d children, prepared, h, outer, e => by
    obtain ⟨others, hothers, rfl⟩ := prepare_block_eq_ok.1 h
    -- a rule directly in a directive has no enclosing rule, whatever is around it
    rw [resolve, sites, map_eq_error_iff]
    exact resolveAll_eq_error_iff hothers none e
  | sheet _ _, _, h, _, _ => nomatch h

theorem resolveAll_eq_error_iff {env : Environment} : ∀ {nodes prepared : List Node},
    prepareAll env nodes = .ok prepared → ∀ (outer : Option Selector.Resolved) (e : CompileError),
      resolveAll outer prepared = .error e ↔
        FirstFault (Site.UnboundAt env) (sitesOf outer.isNone nodes) e
  | [], _, h, _, e => by
    cases h
    exact ⟨nofun, fun h => absurd h (firstFault_nil e)⟩
  | node :: nodes, prepared, h, outer, e => by
    obtain ⟨first, rest, hfirst, hrest, rfl⟩ := prepareAll_cons_eq_ok.1 h
    rw [resolveAll, sitesOf, firstFault_append]
    exact steps_eq_error_iff (resolve_eq_error_iff hfirst outer)
      fun resolved _ => map_eq_error_iff.trans (resolveAll_eq_error_iff hrest outer e)

end

end Node

/-! ## A whole sheet -/

/-- A sheet fails in the first pass that fails. -/
theorem Sheet.compile_eq_error {options : Options} {sheet : Sheet} {fails later : CompileError → Prop}
    (hprepare : ∀ e, Node.prepareAll options.environment sheet.children = .error e ↔ fails e)
    (hresolve : ∀ prepared, Node.prepareAll options.environment sheet.children = .ok prepared →
      ∀ e, Node.resolveAll none prepared = .error e ↔ later e) (e : CompileError) :
    sheet.compile options = .error e ↔ fails e ∨ (∀ e', ¬ fails e') ∧ later e := by
  have hresolved : sheet.compile options = .error e ↔
      sheet.resolved options.environment = .error e := by
    rw [Sheet.compile_eq]
    cases sheet.resolved options.environment <;> simp [Except.map]
  rw [hresolved]
  exact steps_eq_error_iff hprepare fun prepared hok => hresolve prepared hok e

/-- **When a sheet cannot be compiled, and why.**  A sheet of rules, declarations and
directives fails to compile exactly if one of its lines of selectors or values refers
to a variable without a value, or a rule without an enclosing rule has a parent marker
outside of the quotes once it is interpolated.  If there is a variable without a value,
the error is about the leftmost one at the first site that has one; otherwise it is
about the first rule with such a marker.  Either way it tells where that node, and no
other one, comes from. -/
theorem compile_eq_error_iff (options : Options) (sheet : Sheet)
    (hsheet : Node.firstOf? Node.isSheet sheet.children = none) :
    let env := options.environment
    let sites := Node.sitesOf true sheet.children
    ((∃ e, sheet.compile options = .error e) ↔
      (∃ site ∈ sites, site.HasUndefined env) ∨ ∃ site ∈ sites, site.HasUnbound env)
    ∧ ∀ e, sheet.compile options = .error e ↔
      FirstFault (Site.UndefinedAt env) sites e
        ∨ (¬ ∃ site ∈ sites, site.HasUndefined env) ∧ FirstFault (Site.UnboundAt env) sites e := by
  intro env sites
  have hundefined : (∃ e, FirstFault (Site.UndefinedAt env) sites e) ↔
      ∃ site ∈ sites, site.HasUndefined env := by
    simp only [exists_firstFault, Site.exists_undefinedAt]
  have hunbound : (∃ e, FirstFault (Site.UnboundAt env) sites e) ↔
      ∃ site ∈ sites, site.HasUnbound env := by
    simp only [exists_firstFault, Site.exists_unboundAt]
  have herror : ∀ e, sheet.compile options = .error e ↔ FirstFault (Site.UndefinedAt env) sites e
      ∨ (¬ ∃ site ∈ sites, site.HasUndefined env) ∧ FirstFault (Site.UnboundAt env) sites e := by
    intro e
    rw [← hundefined, not_exists]
    exact Sheet.compile_eq_error (Node.prepareAll_eq_error_iff env true hsheet)
      (fun prepared hok => Node.resolveAll_eq_error_iff hok none) e
  refine ⟨?_, herror⟩
  -- which of the two faults is told does not matter for whether there is one
  simp only [herror, exists_or, exists_and_left, hundefined, hunbound]
  exact ⟨fun h => h.imp_right And.right, fun h => (Classical.em _).imp_right fun hnone =>
    ⟨hnone, h.resolve_left hnone⟩⟩

/-- A marker comes first in the sheet, in a block in a rule; the error is about the
variable behind it that no string hides. -/
theorem compile_eq_error_iff_both :
    let sheet : Sheet := { children :=
      [.rule { lines := [['a']] } [.block { value := ['@', 'm'] }
          [.rule { lines := [['&', 'b']], origin := { line := some 2 } } []]],
        .declaration { name := ['x'], value := "'$u' $v".toList, origin := { line := some 3 } },
        .declaration { name := ['y'], value := ['$', 'w'], origin := { line := some 4 } }] }
    let sites := Node.sitesOf true sheet.children
    Node.firstOf? Node.isSheet sheet.children = none
      ∧ (∃ site ∈ sites, site.HasUnbound {}) ∧ (∃ site ∈ sites, site.HasUndefined {})
      ∧ FirstFault (Site.UndefinedAt {}) sites (.undefined ['v'] { line := some 3 }) := by
  intro sheet sites
  have hunbound : ∃ site ∈ sites, site.HasUnbound {} := by
    refine ⟨⟨{ line := some 2 }, [['&', 'b']], true⟩, ?_, rfl, ?_⟩
    · simp [sites, sheet, Node.sitesOf, Node.sites]
    · exact ⟨['&', 'b'], List.mem_singleton.2 rfl, ['&', 'b'], by decide +kernel, ['b'], Text.Reached.here _⟩
  have herror : sheet.compile {} = .error (.undefined ['v'] { line := some 3 }) := by decide +kernel
  obtain ⟨-, hiff⟩ := compile_eq_error_iff {} sheet rfl
  have hfirst : FirstFault (Site.UndefinedAt {}) sites (.undefined ['v'] { line := some 3 }) := by
    -- the error is about a variable, so it is not about the marker
    rcases (hiff _).1 herror with hundefined | ⟨-, before, site, after, -, -, -, heq⟩
    · exact hundefined
    · cases heq
  refine ⟨rfl, hunbound, ?_, hfirst⟩
  obtain ⟨before, site, after, hsites, -, hsite⟩ := hfirst
  refine ⟨site, ?_, Site.exists_undefinedAt.1 ⟨_, hsite⟩⟩
  rw [hsites]
  exact List.mem_append_right before List.mem_cons_self

end NestedSheet
