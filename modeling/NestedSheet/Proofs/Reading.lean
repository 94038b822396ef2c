import NestedSheet.Proofs.Passes
import NestedSheet.Source.Read

/-!
# Reading a content, component by component

A semicolon ends the statement before it, a block in braces takes what stands before it for
its prelude, and every other component waits until its statement is ended.  There is one lemma
for each of these, and the proofs about the reader go from component to component by them.

Main results:

* `readContent_semicolon_eq_ok`, `readContent_curly_eq_ok` — what is read where a statement
  ends, and that nothing else can be.
* `readContent_inert` — components that end no statement.
* `Sheet.read_eq_ok` — when a text is read as a sheet, and as which.
* `readStatement_directive`, `readStatement_declaration`, `readPrelude_directive`,
  `readPrelude_rule` — what is read from the components of a statement and of a prelude.
-/

namespace NestedSheet

variable {source : Source} {components pending content rest : List Component} {p : Position}
  {nodes : List Node}

/-! ## Statements -/

section Stripped

variable {first : Component} {more : List Component} (source : Source)
  (hstrip : Component.strip components = first :: more)

include hstrip

theorem readStatement_directive (hkeyword : first.isAtKeyword = true) (stop : Option Position) :
    readStatement source components stop = .ok [.directive
      { value := source.directiveValue (first :: more) stop
        origin := source.originOf first }] := by
  rw [readStatement, hstrip]
  exact if_pos hkeyword

theorem readStatement_declaration (hkeyword : first.isAtKeyword = false)
    {parts : Component.DeclarationParts}
    (hparts : Component.readDeclaration (first :: more) = .ok parts) (stop : Option Position) :
    readStatement source components stop = .ok [.declaration
      { name := parts.name
        value := Text.strip (Component.printAll parts.value)
        important := parts.important
        origin := source.originOf first }] := by
  rw [readStatement, hstrip]
  refine (if_neg (Bool.eq_false_iff.1 hkeyword)).trans ?_
  rw [hparts]

theorem readPrelude_directive (hkeyword : first.isAtKeyword = true) (stop : Position) :
    readPrelude source components stop = .ok (.directive
      { value := source.directiveValue (first :: more) (some stop)
        origin := source.originOf first }) := by
  rw [readPrelude, hstrip]
  exact if_pos hkeyword

theorem readPrelude_rule (hkeyword : first.isAtKeyword = false) {stop : Position}
    (hlines : selectorLines (source.textOf (first :: more) (some stop)) ≠ []) :
    readPrelude source components stop = .ok (.rule
      { lines := selectorLines (source.textOf (first :: more) (some stop))
        origin := source.originOf first }) := by
  rw [readPrelude, hstrip]
  refine (if_neg (Bool.eq_false_iff.1 hkeyword)).trans ?_
  split
  · next heq => exact absurd heq hlines
  · rfl

end Stripped

/-! ## One component and the rest -/

theorem readContent_cons_eq_ok {c : Component} :
    readContent source pending (c :: rest) = .ok nodes ↔ ∃ ended left more,
      readComponent source pending c = .ok (ended, left)
        ∧ readContent source left rest = .ok more ∧ nodes = ended ++ more := by
  rw [readContent]
  constructor
  · intro h
    obtain ⟨⟨ended, left⟩, hended, h⟩ := steps_eq_ok.1 h
    obtain ⟨more, hmore, h⟩ := steps_eq_ok.1 h
    exact ⟨ended, left, more, hended, hmore, (Except.ok.inj h).symm⟩
  · rintro ⟨ended, left, more, hended, hmore, rfl⟩
    exact steps_eq_ok.2 ⟨_, hended, steps_eq_ok.2 ⟨_, hmore, rfl⟩⟩

/-- A semicolon ends the statement before it. -/
theorem readContent_semicolon_eq_ok :
    readContent source pending (.leaf p (.literal [';']) :: rest) = .ok nodes ↔ ∃ ended more,
      readStatement source pending (some p) = .ok ended
        ∧ readContent source [] rest = .ok more ∧ nodes = ended ++ more := by
  rw [readContent_cons_eq_ok]
  constructor
  · rintro ⟨ended, left, more, hended, hmore, rfl⟩
    rw [readComponent] at hended
    obtain ⟨_, hstatement, hended⟩ := steps_eq_ok.1 hended
    cases hended
    exact ⟨ended, more, hstatement, hmore, rfl⟩
  · rintro ⟨ended, more, hstatement, hmore, rfl⟩
    refine ⟨ended, [], more, ?_, hmore, rfl⟩
    rw [readComponent]
    exact steps_eq_ok.2 ⟨_, hstatement, rfl⟩

/-- A block in braces makes a node of what stands before it and what stands in it. -/
theorem readContent_curly_eq_ok :
    readContent source pending (.block p .curly content :: rest) = .ok nodes ↔
      ∃ prelude children more, readPrelude source pending p = .ok prelude
        ∧ readContent source [] content = .ok children
        ∧ readContent source [] rest = .ok more ∧ nodes = prelude.toNode children :: more := by
  rw [readContent_cons_eq_ok]
  constructor
  · rintro ⟨ended, left, more, hended, hmore, rfl⟩
    rw [readComponent, if_pos rfl] at hended
    obtain ⟨prelude, hprelude, hended⟩ := steps_eq_ok.1 hended
    obtain ⟨children, hchildren, hended⟩ := steps_eq_ok.1 hended
    cases hended
    exact ⟨prelude, children, more, hprelude, hchildren, hmore, rfl⟩
  · rintro ⟨prelude, children, more, hprelude, hchildren, hmore, rfl⟩
    refine ⟨[prelude.toNode children], [], more, ?_, hmore, rfl⟩
    rw [readComponent, if_pos rfl]
    exact steps_eq_ok.2 ⟨_, hprelude, steps_eq_ok.2 ⟨_, hchildren, rfl⟩⟩

/-! ## Components that do not end a statement -/

/-- The component does not end a statement. -/
def Inert (c : Component) : Prop :=
  ∀ source pending, readComponent source pending c = .ok ([], pending ++ [c])

theorem inert_leaf {leaf : Leaf} (hfault : leaf.fault? = none)
    (hsemicolon : leaf ≠ .literal [';']) : Inert (.leaf p leaf) := by
  intro source pending
  rw [readComponent, hfault]
  simp only
  rw [if_neg hsemicolon]
  rfl

theorem inert_ident (p : Position) (name : Text) : Inert (.leaf p (.ident name)) :=
  inert_leaf rfl nofun

theorem inert_atKeyword (p : Position) (name : Text) : Inert (.leaf p (.atKeyword name)) :=
  inert_leaf rfl nofun

/-- Components that do not end a statement are pending after they are read. -/
theorem readContent_inert (source : Source) (h : ∀ c ∈ components, Inert c)
    (pending rest : List Component) :
    readContent source pending (components ++ rest)
      = readContent source (pending ++ components) rest := by
  induction components generalizing pending with
  | nil => rw [List.nil_append, List.append_nil]
  | cons c cs ih =>
    obtain ⟨hc, hcs⟩ := List.forall_mem_cons.1 h
    -- a component that ends nothing adds no node
    have hmap : ∀ x : Except ReadError (List Node), (x >>= fun more => pure ([] ++ more)) = x := by
      intro x
      cases x <;> rfl
    rw [List.cons_append, readContent, hc source pending]
    show (readContent source (pending ++ [c]) (cs ++ rest) >>= fun more => pure ([] ++ more)) = _
    rw [hmap, ih hcs (pending ++ [c]), List.append_assoc, List.singleton_append]

section Inert

variable (hinert : ∀ c ∈ components, Inert c)

include hinert

/-- At the end, what is pending is read as a statement. -/
theorem readContent_end :
    readContent source [] components = readStatement source components none := by
  have hread := readContent_inert source hinert [] []
  rwa [List.append_nil, List.nil_append, readContent] at hread

theorem readContent_semicolon {more : List Node}
    (hread : readStatement source components (some p) = .ok nodes)
    (hrest : readContent source [] rest = .ok more) :
    readContent source [] (components ++ .leaf p (.literal [';']) :: rest)
      = .ok (nodes ++ more) := by
  rw [readContent_inert source hinert, List.nil_append]
  exact readContent_semicolon_eq_ok.2 ⟨nodes, more, hread, hrest, rfl⟩

theorem readContent_block {children more : List Node} {prelude : Prelude}
    (hread : readPrelude source components p = .ok prelude)
    (hinside : readContent source [] content = .ok children)
    (hrest : readContent source [] rest = .ok more) :
    readContent source [] (components ++ .block p .curly content :: rest)
      = .ok (prelude.toNode children :: more) := by
  rw [readContent_inert source hinert, List.nil_append]
  exact readContent_curly_eq_ok.2 ⟨prelude, children, more, hread, hinside, hrest, rfl⟩

end Inert

/-! ## Sheets -/

/-- A sheet is the content of its text, and no declaration stands at its top. -/
theorem Sheet.read_eq_ok {path : Option Text} {t : Text} {sheet : Sheet} :
    Sheet.read path t = .ok sheet ↔ ∃ components nodes,
      Component.parse (Source.ofText path t).text = .ok components
        ∧ readContent (Source.ofText path t) [] components = .ok nodes
        ∧ refuseDeclarations nodes = .ok () ∧ sheet = { path, children := nodes } := by
  constructor
  · intro h
    obtain ⟨components, hparse, h⟩ := steps_eq_ok.1 h
    obtain ⟨nodes, hnodes, h⟩ := steps_eq_ok.1 h
    obtain ⟨_, hrefused, h⟩ := steps_eq_ok.1 h
    exact ⟨components, nodes, mapError_eq_ok.1 hparse, hnodes, hrefused, (Except.ok.inj h).symm⟩
  · rintro ⟨components, nodes, hparse, hnodes, hrefused, rfl⟩
    exact steps_eq_ok.2 ⟨components, mapError_eq_ok.2 hparse,
      steps_eq_ok.2 ⟨nodes, hnodes, steps_eq_ok.2 ⟨(), hrefused, rfl⟩⟩⟩

end NestedSheet
