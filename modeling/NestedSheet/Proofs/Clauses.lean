import NestedSheet.Proofs.Listing
import NestedSheet.Proofs.Reading

/-!
# The clauses of a stylesheet

A stylesheet is a sequence of clauses: the components between two semicolons or
brackets, without the whitespace around them, and what ends them.  The content of a
block comes right after the clause that the block ends, so the clauses of a sheet are
a list and not a tree.

Reading makes one node of every clause.  The nodes of the sheet, each before its
children, are what the clauses are read as, one by one and in order
(`Sheet.read_clauses`).  Whatever is said about a node and the components that it was
read from can so be said about the two lists.
-/

namespace NestedSheet

/-! ## Clauses -/

/-- What ends a clause. -/
inductive Clause.Ending where
  /-- A block that opens at the position. -/
  | block (position : Position)
  /-- A semicolon at the position. -/
  | semicolon (position : Position)
  /-- The end of the block around the clause, or of the text. -/
  | nothing
deriving DecidableEq, Repr

/-- The position where the text of a clause is cut off, if something ends it. -/
def Clause.Ending.stop? : Clause.Ending → Option Position
  | block p => some p
  | semicolon p => some p
  | nothing => none

/-- Components that are read together, and what ends them. -/
structure Clause where
  components : List Component
  ending : Clause.Ending
deriving DecidableEq, Repr

/-- The clause of some components, unless they are whitespace only. -/
def clauseOf (components : List Component) (ending : Clause.Ending) : List Clause :=
  match Component.strip components with
  | [] => []
  | first :: rest => [⟨first :: rest, ending⟩]

mutual

/-- The clauses of a content, the first of which starts with the components that are
pending. -/
def clauses (pending : List Component) : List Component → List Clause
  | [] => clauseOf pending .nothing
  | c :: cs => (clausesEndedBy pending c).1 ++ clauses (clausesEndedBy pending c).2 cs

/-- The clauses up to the end of a component, and the components that are then
pending. -/
def clausesEndedBy (pending : List Component) : Component → List Clause × List Component
  | .leaf p l =>
    if l = .literal [';'] then (clauseOf pending (.semicolon p), [])
    else ([], pending ++ [.leaf p l])
  | .function p name arguments => ([], pending ++ [.function p name arguments])
  | .block p bracket content =>
    if bracket = .curly then (clauseOf pending (.block p) ++ clauses [] content, [])
    else ([], pending ++ [.block p bracket content])

end

/-! ## Nodes in reading order -/

namespace Node

mutual

/-- The nodes of a tree, each before its children. -/
def inOrder : Node → List Node
  | rule r children => rule r children :: inOrderOf children
  | declaration d => [declaration d]
  | directive d => [directive d]
  | block d children => block d children :: inOrderOf children
  | sheet path children => sheet path children :: inOrderOf children

/-- The nodes of a list of trees, each before its children. -/
def inOrderOf : List Node → List Node
  | [] => []
  | node :: nodes => inOrder node ++ inOrderOf nodes

end

theorem inOrderOf_append (nodes others : List Node) :
    inOrderOf (nodes ++ others) = inOrderOf nodes ++ inOrderOf others := by
  induction nodes with
  | nil => rfl
  | cons node nodes ih => rw [List.cons_append, inOrderOf, inOrderOf, ih, List.append_assoc]

mutual

theorem mem_inOrder_of_mem_rules {p : Rule × List Node} : ∀ {node : Node},
    p ∈ rules node → rule p.1 p.2 ∈ inOrder node
  | rule _ _, h => by
    rw [inOrder]
    rcases List.mem_cons.1 h with rfl | h
    · exact List.mem_cons_self
    · exact List.mem_cons_of_mem _ (mem_inOrderOf_of_mem_rulesOf h)
  | declaration _, h => nomatch h
  | directive _, h => nomatch h
  | block _ _, h => List.mem_cons_of_mem _ (mem_inOrderOf_of_mem_rulesOf h)
  | sheet _ _, h => nomatch h

/-- The rules of trees are among their nodes. -/
theorem mem_inOrderOf_of_mem_rulesOf {p : Rule × List Node} : ∀ {nodes : List Node},
    p ∈ rulesOf nodes → rule p.1 p.2 ∈ inOrderOf nodes
  | [], h => nomatch h
  | _ :: _, h => by
    rw [inOrderOf, List.mem_append]
    rcases List.mem_append.1 h with h | h
    · exact Or.inl (mem_inOrder_of_mem_rules h)
    · exact Or.inr (mem_inOrderOf_of_mem_rulesOf h)

end

end Node

/-! ## What a clause is read as -/

/-- The clause is read as a node with this head: a rule or a directive with what stands
in the source, a declaration with what is written of the components of its value. -/
inductive Clause.ReadAs (source : Source) : Clause → Node → Prop
  | rule {first : Component} {rest : List Component} {p : Position} {children : List Node}
    (hfirst : first.isAtKeyword = false)
    (hlines : selectorLines (source.textOf (first :: rest) (some p)) ≠ []) :
    ReadAs source ⟨first :: rest, .block p⟩ (.rule
      { lines := selectorLines (source.textOf (first :: rest) (some p))
        origin := source.originOf first } children)
  | block {first : Component} {rest : List Component} {p : Position} {children : List Node}
    (hfirst : first.isAtKeyword = true) :
    ReadAs source ⟨first :: rest, .block p⟩ (.block
      { value := source.directiveValue (first :: rest) (some p)
        origin := source.originOf first } children)
  | directive {first : Component} {rest : List Component} {ending : Clause.Ending}
    (hfirst : first.isAtKeyword = true) :
    ReadAs source ⟨first :: rest, ending⟩ (.directive
      { value := source.directiveValue (first :: rest) ending.stop?
        origin := source.originOf first })
  | declaration {first : Component} {rest : List Component} {ending : Clause.Ending}
    {parts : Component.DeclarationParts}
    (hparts : Component.readDeclaration (first :: rest) = .ok parts) :
    ReadAs source ⟨first :: rest, ending⟩ (.declaration
      { name := parts.name
        value := Text.strip (Component.printAll parts.value)
        important := parts.important
        origin := source.originOf first })

section ReadAs

variable {source : Source} {components : List Component}

theorem readStatement_clauseOf (ending : Clause.Ending) {nodes : List Node}
    (h : readStatement source components ending.stop? = .ok nodes) :
    List.Forall₂ (Clause.ReadAs source) (clauseOf components ending) (Node.inOrderOf nodes) := by
  unfold readStatement at h
  unfold clauseOf
  cases hstrip : Component.strip components with
  | nil =>
    rw [hstrip] at h
    cases h
    exact .nil
  | cons first rest =>
    simp only [hstrip] at h
    split at h
    · next hfirst =>
      cases h
      exact .cons (.directive hfirst) .nil
    · split at h
      · next parts hparts =>
        cases h
        exact .cons (.declaration hparts) .nil
      · cases h

theorem readPrelude_clauseOf {p : Position} {prelude : Prelude}
    (h : readPrelude source components p = .ok prelude) (children : List Node) :
    ∃ clause, clauseOf components (.block p) = [clause]
      ∧ Clause.ReadAs source clause (prelude.toNode children) := by
  unfold readPrelude at h
  unfold clauseOf
  cases hstrip : Component.strip components with
  | nil =>
    rw [hstrip] at h
    cases h
  | cons first rest =>
    simp only [hstrip] at h
    refine ⟨_, rfl, ?_⟩
    split at h
    · next hfirst =>
      cases h
      exact .block hfirst
    · next hfirst =>
      split at h
      · cases h
      · next hlines =>
        cases h
        exact .rule (Bool.eq_false_iff.2 hfirst) hlines

theorem inOrder_toNode (prelude : Prelude) (children : List Node) :
    Node.inOrder (prelude.toNode children) = prelude.toNode children :: Node.inOrderOf children := by
  cases prelude <;> rw [Prelude.toNode, Node.inOrder]

end ReadAs

mutual

/-- Reading a content makes one node of every clause. -/
theorem readContent_clauses {source : Source} {pending : List Component} :
    ∀ {components : List Component} {nodes : List Node},
    readContent source pending components = .ok nodes →
      List.Forall₂ (Clause.ReadAs source) (clauses pending components) (Node.inOrderOf nodes)
  | [], nodes, h => by
    rw [readContent] at h
    rw [clauses]
    exact readStatement_clauseOf .nothing h
  | c :: cs, nodes, h => by
    obtain ⟨first, left, more, hfirst, hmore, rfl⟩ := readContent_cons_eq_ok.1 h
    obtain ⟨hstep, hleft⟩ := readComponent_clauses hfirst
    rw [clauses, Node.inOrderOf_append, hleft]
    exact List.rel_append hstep (readContent_clauses hmore)

theorem readComponent_clauses {source : Source} {pending left : List Component} :
    ∀ {c : Component} {nodes : List Node}, readComponent source pending c = .ok (nodes, left) →
      List.Forall₂ (Clause.ReadAs source) (clausesEndedBy pending c).1 (Node.inOrderOf nodes)
        ∧ (clausesEndedBy pending c).2 = left
  | .leaf p l, nodes, h => by
    rw [readComponent] at h
    rw [clausesEndedBy]
    split at h
    · cases h
    · split at h
      · next hl =>
        obtain ⟨ended, hended, h⟩ := steps_eq_ok.1 h
        cases h
        rw [if_pos hl]
        exact ⟨readStatement_clauseOf (.semicolon p) hended, rfl⟩
      · next hl =>
        cases h
        rw [if_neg hl]
        exact ⟨.nil, rfl⟩
  | .function p name arguments, nodes, h => by
    rw [readComponent] at h
    cases h
    rw [clausesEndedBy]
    exact ⟨.nil, rfl⟩
  | .block p bracket content, nodes, h => by
    rw [readComponent] at h
    rw [clausesEndedBy]
    split at h
    · next hcurly =>
      obtain ⟨prelude, hprelude, h⟩ := steps_eq_ok.1 h
      obtain ⟨children, hchildren, h⟩ := steps_eq_ok.1 h
      cases h
      obtain ⟨clause, hclause, hread⟩ := readPrelude_clauseOf hprelude children
      rw [if_pos hcurly, hclause, Node.inOrderOf, Node.inOrderOf, List.append_nil, inOrder_toNode]
      exact ⟨.cons hread (readContent_clauses hchildren), rfl⟩
    · next hcurly =>
      cases h
      rw [if_neg hcurly]
      exact ⟨.nil, rfl⟩

end

/-- Every one of the nodes was read from one of the clauses. -/
theorem exists_clause_of_mem {source : Source} {list : List Clause} {nodes : List Node}
    (h : List.Forall₂ (Clause.ReadAs source) list nodes) {node : Node} (hnode : node ∈ nodes) :
    ∃ clause ∈ list, clause.ReadAs source node := by
  induction h with
  | nil => cases hnode
  | cons hread _ ih =>
    rcases List.mem_cons.1 hnode with rfl | hnode
    · exact ⟨_, List.mem_cons_self, hread⟩
    · obtain ⟨clause, hclause, hread⟩ := ih hnode
      exact ⟨clause, List.mem_cons_of_mem _ hclause, hread⟩

/-- The nodes of a sheet are what the clauses of its text are read as, in order. -/
theorem Sheet.read_clauses {path : Option Text} {t : Text} {sheet : Sheet}
    (h : Sheet.read path t = .ok sheet) :
    List.Forall₂ (Clause.ReadAs (Source.ofText path t))
      (clauses [] (Component.ofText (Source.ofText path t).text))
      (Node.inOrderOf sheet.children) := by
  obtain ⟨_, nodes, hparse, hnodes, -, rfl⟩ := Sheet.read_eq_ok.1 h
  obtain ⟨-, rfl⟩ := Component.parse_eq_ok.1 hparse
  exact readContent_clauses hnodes

end NestedSheet
