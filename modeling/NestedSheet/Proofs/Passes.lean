import NestedSheet.Layout

/-!
# What each pass leaves

The passes of the compilation run one after the other, and each relies on what
the one before it left.  A tree that was resolved has no sheet in it and no rule
without selectors, and flattening keeps it so: after resolving nothing can fail.

Main results:

* `compile_eq` — compiling is preparing, resolving and flattening, and only the
  first two can fail.
* `toCss_eq` — the text of a sheet is the layout of what compiling gives.
-/

namespace NestedSheet

/-- Two steps give a result exactly through a result of the first one. -/
theorem steps_eq_ok {ε α β : Type} {first : Except ε α} {second : α → Except ε β} {result : β} :
    (do second (← first)) = .ok result ↔
      ∃ between, first = .ok between ∧ second between = .ok result := by
  rcases first with e | between
  · exact ⟨nofun, fun ⟨_, h, _⟩ => nomatch h⟩
  · exact ⟨fun h => ⟨between, rfl, h⟩, fun ⟨_, h, h'⟩ => by cases h; exact h'⟩

/-- Two steps fail exactly where the first one does, or the second one after it. -/
theorem steps_eq_error {ε α β : Type} {first : Except ε α} {second : α → Except ε β} {e : ε} :
    (do second (← first)) = .error e ↔
      first = .error e ∨ ∃ between, first = .ok between ∧ second between = .error e := by
  rcases first with e' | between
  · refine ⟨fun h => Or.inl (congrArg _ (Except.error.inj h)), ?_⟩
    rintro (h | ⟨_, h, _⟩)
    · exact congrArg _ (Except.error.inj h)
    · cases h
  · refine ⟨fun h => Or.inr ⟨between, rfl, h⟩, ?_⟩
    rintro (h | ⟨_, h, h'⟩)
    · cases h
    · cases h
      exact h'

theorem mapError_eq_ok {ε ε' α : Type} {f : ε → ε'} {first : Except ε α} {result : α} :
    first.mapError f = .ok result ↔ first = .ok result := by
  cases first with
  | error e => constructor <;> (intro h; cases h)
  | ok a => constructor <;> (intro h; cases h; rfl)

/-- The results of a step that is taken for each element. -/
theorem mem_mapM {ε α β : Type} {f : α → Except ε β} {xs : List α} {ys : List β}
    (h : xs.mapM f = .ok ys) (y : β) : y ∈ ys ↔ ∃ x ∈ xs, f x = .ok y := by
  induction xs generalizing ys with
  | nil =>
    cases h
    simp
  | cons x xs ih =>
    rw [List.mapM_cons] at h
    obtain ⟨z, hz, h⟩ := steps_eq_ok.1 h
    obtain ⟨zs, hzs, h⟩ := steps_eq_ok.1 h
    cases h
    have hhead : y = z ↔ f x = .ok y := by
      rw [hz, Except.ok.injEq, eq_comm]
    rw [List.mem_cons, ih hzs, hhead]
    simp only [List.mem_cons, exists_eq_or_imp]

namespace Node

theorem prepareAll_eq_mapM (env : Environment) (nodes : List Node) :
    prepareAll env nodes = nodes.mapM (prepare env) := by
  induction nodes with
  | nil => rfl
  | cons node nodes ih => rw [prepareAll, List.mapM_cons, ih]

theorem resolveAll_eq_mapM (outer : Option Selector.Resolved) (nodes : List Node) :
    resolveAll outer nodes = nodes.mapM (resolve outer) := by
  induction nodes with
  | nil => rfl
  | cons node nodes ih => rw [resolveAll, List.mapM_cons, ih]

/-! ## What a pass does to one node

Each of these says when a pass goes through, and all that it then gives. -/

section Step

variable {env : Environment} {outer : Option Selector.Resolved} {r : Rule} {d : Declaration}
  {b : Directive} {children nodes : List Node} {node result : Node} {results : List Node}

theorem prepare_rule_eq_ok :
    prepare env (rule r children) = .ok result ↔ ∃ lines others,
      r.lines.mapM (env.interpolateAt r.origin) = .ok lines ∧ prepareAll env children = .ok others
        ∧ result = rule { r with parsed := some (lines.map Selector.parse) } others := by
  rw [prepare]
  constructor
  · intro h
    obtain ⟨lines, hlines, h⟩ := steps_eq_ok.1 h
    obtain ⟨others, hothers, h⟩ := steps_eq_ok.1 h
    exact ⟨lines, others, hlines, hothers, (Except.ok.inj h).symm⟩
  · rintro ⟨lines, others, hlines, hothers, rfl⟩
    exact steps_eq_ok.2 ⟨lines, hlines, steps_eq_ok.2 ⟨others, hothers, rfl⟩⟩

theorem prepare_declaration_eq_ok :
    prepare env (declaration d) = .ok result ↔ ∃ value,
      env.interpolateAt d.origin d.value = .ok value ∧ result = declaration { d with value } := by
  rw [prepare, steps_eq_ok]
  exact exists_congr fun value => and_congr_right fun _ => ⟨fun h => (Except.ok.inj h).symm,
    fun h => congrArg Except.ok h.symm⟩

theorem prepare_block_eq_ok :
    prepare env (block b children) = .ok result ↔ ∃ others,
      prepareAll env children = .ok others ∧ result = block b others := by
  rw [prepare, steps_eq_ok]
  exact exists_congr fun others => and_congr_right fun _ => ⟨fun h => (Except.ok.inj h).symm,
    fun h => congrArg Except.ok h.symm⟩

theorem prepareAll_cons_eq_ok :
    prepareAll env (node :: nodes) = .ok results ↔ ∃ first rest,
      prepare env node = .ok first ∧ prepareAll env nodes = .ok rest ∧ results = first :: rest := by
  rw [prepareAll]
  constructor
  · intro h
    obtain ⟨first, hfirst, h⟩ := steps_eq_ok.1 h
    obtain ⟨rest, hrest, h⟩ := steps_eq_ok.1 h
    exact ⟨first, rest, hfirst, hrest, (Except.ok.inj h).symm⟩
  · rintro ⟨first, rest, hfirst, hrest, rfl⟩
    exact steps_eq_ok.2 ⟨first, hfirst, steps_eq_ok.2 ⟨rest, hrest, rfl⟩⟩

theorem resolve_rule_eq_ok :
    resolve outer (rule r children) = .ok result ↔ ∃ resolved others,
      r.resolve outer = .ok resolved ∧ resolveAll (some resolved) children = .ok others
        ∧ result = rule { r with resolved := some resolved } others := by
  rw [resolve]
  constructor
  · intro h
    obtain ⟨resolved, hresolved, h⟩ := steps_eq_ok.1 h
    obtain ⟨others, hothers, h⟩ := steps_eq_ok.1 h
    exact ⟨resolved, others, hresolved, hothers, (Except.ok.inj h).symm⟩
  · rintro ⟨resolved, others, hresolved, hothers, rfl⟩
    exact steps_eq_ok.2 ⟨resolved, hresolved, steps_eq_ok.2 ⟨others, hothers, rfl⟩⟩

theorem resolve_block_eq_ok :
    resolve outer (block b children) = .ok result ↔ ∃ others,
      resolveAll none children = .ok others ∧ result = block b others := by
  rw [resolve, steps_eq_ok]
  exact exists_congr fun others => and_congr_right fun _ => ⟨fun h => (Except.ok.inj h).symm,
    fun h => congrArg Except.ok h.symm⟩

theorem resolveAll_cons_eq_ok :
    resolveAll outer (node :: nodes) = .ok results ↔ ∃ first rest,
      resolve outer node = .ok first ∧ resolveAll outer nodes = .ok rest
        ∧ results = first :: rest := by
  rw [resolveAll]
  constructor
  · intro h
    obtain ⟨first, hfirst, h⟩ := steps_eq_ok.1 h
    obtain ⟨rest, hrest, h⟩ := steps_eq_ok.1 h
    exact ⟨first, rest, hfirst, hrest, (Except.ok.inj h).symm⟩
  · rintro ⟨first, rest, hfirst, hrest, rfl⟩
    exact steps_eq_ok.2 ⟨first, hfirst, steps_eq_ok.2 ⟨rest, hrest, rfl⟩⟩

end Step

/-! ## Nodes of a kind -/

theorem first?_rule_eq_none {p : Node → Bool} {r : Rule} {children : List Node} :
    first? p (rule r children) = none ↔
      p (rule r children) = false ∧ firstOf? p children = none := by
  rw [first?]
  split <;> simp_all

theorem first?_block_eq_none {p : Node → Bool} {d : Directive} {children : List Node} :
    first? p (block d children) = none ↔
      p (block d children) = false ∧ firstOf? p children = none := by
  rw [first?]
  split <;> simp_all

/-- No node of the trees has a property if none of any of them has it. -/
theorem firstOf?_eq_none {p : Node → Bool} {nodes : List Node} :
    firstOf? p nodes = none ↔ ∀ node ∈ nodes, first? p node = none := by
  induction nodes with
  | nil => simp [firstOf?]
  | cons node nodes ih =>
    rw [firstOf?, List.forall_mem_cons]
    cases first? p node with
    | none => simp [ih]
    | some found => simp

mutual

/-- Where a weaker property holds of no node, a stronger one holds of none. -/
theorem first?_eq_none_of_imp {p q : Node → Bool} (himp : ∀ node, p node = true → q node = true) :
    ∀ {node : Node}, first? q node = none → first? p node = none
  | rule r children, h => by
    rw [first?_rule_eq_none] at h ⊢
    exact ⟨by have := himp (rule r children); grind, firstOf?_eq_none_of_imp himp h.2⟩
  | declaration d, h => by have := himp (declaration d); grind [first?]
  | directive d, h => by have := himp (directive d); grind [first?]
  | block d children, h => by
    rw [first?_block_eq_none] at h ⊢
    exact ⟨by have := himp (block d children); grind, firstOf?_eq_none_of_imp himp h.2⟩
  | sheet path children, h => by
    have := himp (sheet path children)
    rw [first?] at h ⊢
    split at h
    · cases h
    · rw [if_neg (by grind)]
      exact firstOf?_eq_none_of_imp himp h

theorem firstOf?_eq_none_of_imp {p q : Node → Bool}
    (himp : ∀ node, p node = true → q node = true) :
    ∀ {nodes : List Node}, firstOf? q nodes = none → firstOf? p nodes = none
  | [], _ => rfl
  | node :: nodes, h => by
    rw [firstOf?_eq_none, List.forall_mem_cons, ← firstOf?_eq_none] at h ⊢
    exact ⟨first?_eq_none_of_imp himp h.1, firstOf?_eq_none_of_imp himp h.2⟩

end

/-! ## Resolving -/

mutual

/-- A tree that was resolved can be written. -/
theorem resolve_writable {outer : Option Selector.Resolved} : ∀ {node result : Node},
    resolve outer node = .ok result → first? isUnwritable result = none
  | rule r children, result, h => by
    obtain ⟨resolved, others, -, hothers, rfl⟩ := resolve_rule_eq_ok.1 h
    -- the rule has its selectors now, and its children are writable by induction
    rw [first?_rule_eq_none]
    exact ⟨rfl, resolveAll_writable hothers⟩
  | declaration _, _, h => by cases h; rfl
  | directive _, _, h => by cases h; rfl
  | block d children, result, h => by
    obtain ⟨others, hothers, rfl⟩ := resolve_block_eq_ok.1 h
    rw [first?_block_eq_none]
    exact ⟨rfl, resolveAll_writable hothers⟩
  | sheet _ _, _, h => by cases h

theorem resolveAll_writable {outer : Option Selector.Resolved} : ∀ {nodes results : List Node},
    resolveAll outer nodes = .ok results → firstOf? isUnwritable results = none
  | [], _, h => by cases h; rfl
  | node :: nodes, results, h => by
    obtain ⟨result, rest, hresult, hrest, rfl⟩ := resolveAll_cons_eq_ok.1 h
    rw [firstOf?, resolve_writable hresult]
    exact resolveAll_writable hrest

end

theorem isUnwritable_of_isSheet (node : Node) (h : node.isSheet = true) :
    node.isUnwritable = true := by
  cases node <;> first | rfl | cases h

/-! ## Flattening -/

theorem first?_isUnwritable_mapRule (f : Rule → Rule) (hf : ∀ r, (f r).resolved = r.resolved)
    (node : Node) (h : first? isUnwritable node = none) :
    first? isUnwritable (node.mapRule f) = none := by
  cases node with
  | rule r children =>
    rw [mapRule, first?_rule_eq_none, isUnwritable, hf r]
    exact first?_rule_eq_none.1 h
  | _ => exact h

theorem endGroup_writable (nodes : List Node) (h : firstOf? isUnwritable nodes = none) :
    firstOf? isUnwritable (endGroup nodes) = none := by
  fun_induction endGroup nodes with
  | case1 => rfl
  | case2 last =>
    rw [firstOf?_eq_none, List.forall_mem_singleton] at h ⊢
    exact first?_isUnwritable_mapRule (Rule.withGroupEnd true) (fun _ => rfl) last h
  | case3 node next nodes ih =>
    rw [firstOf?_eq_none, List.forall_mem_cons, ← firstOf?_eq_none] at h ⊢
    exact ⟨first?_isUnwritable_mapRule (Rule.withGroupEnd false) (fun _ => rfl) node h.1, ih h.2⟩

theorem splice_writable {style : Style} {r : Rule} {children : List Node}
    (hr : r.resolved.isNone = false) (h : firstOf? isUnwritable children = none) :
    firstOf? isUnwritable (splice style r children) = none := by
  rw [firstOf?_eq_none] at h
  have hsub : ∀ p : Node → Bool, ∀ node ∈ children.filter p, first? isUnwritable node = none :=
    fun p node hnode => h node (List.mem_filter.1 hnode).1
  unfold splice
  simp only
  split
  · exact firstOf?_eq_none.2 (hsub isRule)
  · rw [firstOf?_eq_none, List.forall_mem_cons, first?_rule_eq_none]
    refine ⟨⟨hr, firstOf?_eq_none.2 (hsub isOwn)⟩, ?_⟩
    split
    · intro node hnode
      obtain ⟨other, hother, rfl⟩ := List.mem_map.1 hnode
      exact first?_isUnwritable_mapRule Rule.deepen (fun _ => rfl) other (hsub isRule other hother)
    · exact hsub isRule

mutual

/-- Flattening a tree that can be written gives trees that can be written. -/
theorem flatten_writable (style : Style) (enclosed : Bool) : ∀ node : Node,
    first? isUnwritable node = none → firstOf? isUnwritable (flatten style enclosed node) = none
  | rule r children, h => by
    obtain ⟨hr, hchildren⟩ := first?_rule_eq_none.1 h
    have hsplice : firstOf? isUnwritable (splice style r (flattenAll style true children)) = none :=
      splice_writable hr (flattenAll_writable style true children hchildren)
    rw [flatten, flattenRule]
    split
    · exact hsplice
    · exact endGroup_writable _ hsplice
  | declaration _, _ => rfl
  | directive _, _ => rfl
  | block d children, h => by
    rw [flatten, firstOf?_eq_none, List.forall_mem_singleton, first?_block_eq_none]
    exact ⟨rfl, flattenAll_writable style false children (first?_block_eq_none.1 h).2⟩
  | sheet _ _, h => by cases h

theorem flattenAll_writable (style : Style) (enclosed : Bool) : ∀ nodes : List Node,
    firstOf? isUnwritable nodes = none →
      firstOf? isUnwritable (flattenAll style enclosed nodes) = none
  | [], _ => rfl
  | node :: nodes, h => by
    rw [firstOf?_eq_none, List.forall_mem_cons, ← firstOf?_eq_none] at h
    rw [flattenAll, firstOf?_eq_none, List.forall_mem_append, ← firstOf?_eq_none,
      ← firstOf?_eq_none]
    exact ⟨flatten_writable style enclosed node h.1, flattenAll_writable style enclosed nodes h.2⟩

end

end Node

/-! ## A whole sheet -/

/-- Preparing and resolving the nodes of a sheet. -/
def Sheet.resolved (env : Environment) (sheet : Sheet) : Except CompileError (List Node) := do
  Node.resolveAll none (← Node.prepareAll env sheet.children)

/-- Compiling is preparing, resolving and flattening, and only the first two can
fail. -/
theorem Sheet.compile_eq (options : Options) (sheet : Sheet) :
    sheet.compile options = (sheet.resolved options.environment).map fun nodes =>
      { sheet with children := Node.flattenAll options.style false nodes } := by
  unfold Sheet.compile Sheet.resolved
  cases Node.prepareAll options.environment sheet.children with
  | error e => rfl
  | ok prepared =>
    cases hresolved : Node.resolveAll none prepared with
    | error e => simp [bind, Except.bind, Except.map, hresolved]
    | ok nodes =>
      have hsheet : Node.firstOf? Node.isSheet nodes = none :=
        Node.firstOf?_eq_none_of_imp Node.isUnwritable_of_isSheet
          (Node.resolveAll_writable hresolved)
      have hflat : (Node.flattenAll? options.style false nodes).mapError CompileError.unsupported
          = .ok (Node.flattenAll options.style false nodes) := by
        rw [mapError_eq_ok, Node.flattenAll?, hsheet]
        rfl
      simp [bind, Except.bind, Except.map, hresolved, hflat, pure, Except.pure]

theorem Sheet.compile_eq_ok {options : Options} {sheet flat : Sheet} :
    sheet.compile options = .ok flat ↔ ∃ nodes, sheet.resolved options.environment = .ok nodes
      ∧ flat = { sheet with children := Node.flattenAll options.style false nodes } := by
  rw [Sheet.compile_eq]
  cases sheet.resolved options.environment with
  | error e => simp [Except.map]
  | ok nodes => simp [Except.map, eq_comm]

theorem Sheet.resolved_writable {env : Environment} {sheet : Sheet} {nodes : List Node}
    (h : sheet.resolved env = .ok nodes) : Node.firstOf? Node.isUnwritable nodes = none := by
  obtain ⟨prepared, -, hnodes⟩ := steps_eq_ok.1 h
  exact Node.resolveAll_writable hnodes

/-- The text of a sheet is the layout of its flat nodes, and only preparing and
resolving them can fail. -/
theorem Sheet.toCss_eq (options : Options) (sheet : Sheet) :
    sheet.toCss options = (sheet.resolved options.environment).map fun nodes =>
      layoutSheet options.style options.annotate
        (Node.flattenAll options.style false nodes) := by
  unfold Sheet.toCss
  rw [Sheet.compile_eq]
  cases hresolved : sheet.resolved options.environment with
  | error e => rfl
  | ok nodes =>
    have hflat := Node.flattenAll_writable options.style false nodes
      (Sheet.resolved_writable hresolved)
    simp [bind, Except.bind, Except.map, Sheet.render, Node.render, hflat, unlessFound]

theorem Sheet.toCss_eq_ok {options : Options} {sheet : Sheet} {t : Text} :
    sheet.toCss options = .ok t ↔ ∃ nodes, sheet.resolved options.environment = .ok nodes
      ∧ t = layoutSheet options.style options.annotate
        (Node.flattenAll options.style false nodes) := by
  rw [Sheet.toCss_eq]
  cases sheet.resolved options.environment with
  | error e => simp [Except.map]
  | ok nodes => simp [Except.map, eq_comm]

end NestedSheet
