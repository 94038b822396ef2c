import NestedSheet.Proofs.Gathering
import NestedSheet.Proofs.Placement

/-!
# Moving components

The positions of components matter in two ways when a stylesheet is read: the text of a
statement is cut out between two of them, and errors and origins name their lines.  If
components move to other places of another text, where the same text stands between them,
and stay on their lines, they are read as before (`readContent_move`).
-/

namespace NestedSheet

open Component

namespace Component

/-! ## Moved components -/

section Move

variable (f : Position → Position)

mutual

/-- The component with its positions moved. -/
def move : Component → Component
  | leaf p l => leaf (f p) l
  | function p name arguments => function (f p) name (moveAll arguments)
  | block p bracket content => block (f p) bracket (moveAll content)

/-- The components with their positions moved. -/
def moveAll : List Component → List Component
  | [] => []
  | c :: cs => move c :: moveAll cs

end

@[simp] theorem moveAll_nil : moveAll f [] = [] := by
  rw [moveAll]

@[simp] theorem moveAll_append (components others : List Component) :
    moveAll f (components ++ others) = moveAll f components ++ moveAll f others := by
  induction components with
  | nil => rw [moveAll, List.nil_append, List.nil_append]
  | cons c cs ih => rw [List.cons_append, moveAll, moveAll, ih, List.cons_append]

@[simp] theorem moveAll_reverse (components : List Component) :
    moveAll f components.reverse = (moveAll f components).reverse := by
  induction components with
  | nil => rw [List.reverse_nil, moveAll, List.reverse_nil]
  | cons c cs ih =>
    rw [List.reverse_cons, moveAll_append, ih, moveAll, moveAll_nil, moveAll, List.reverse_cons]

theorem position_move (c : Component) : (move f c).position = f c.position := by
  cases c <;> rw [move, position, position]

@[simp] theorem isWhitespace_move (c : Component) : (move f c).isWhitespace = c.isWhitespace := by
  cases c with
  | leaf p l => cases l <;> rw [move] <;> rfl
  | _ => rw [move]; rfl

@[simp] theorem isLiteral_move (t : Text) (c : Component) :
    (move f c).isLiteral t = c.isLiteral t := by
  cases c with
  | leaf p l => cases l <;> rw [move] <;> rfl
  | _ => rw [move]; rfl

@[simp] theorem isAtKeyword_move (c : Component) : (move f c).isAtKeyword = c.isAtKeyword := by
  cases c with
  | leaf p l => cases l <;> rw [move] <;> rfl
  | _ => rw [move]; rfl

@[simp] theorem isImportant_move (c : Component) : isImportant (move f c) = isImportant c := by
  cases c with
  | leaf p l => cases l <;> rw [move] <;> rfl
  | _ => rw [move]; rfl

@[simp] theorem edge_move (c : Component) : (move f c).edge = c.edge := by
  cases c with
  | leaf p l => cases l <;> rw [move] <;> rfl
  | function p name arguments => rw [move]; rfl
  | block p bracket content => cases bracket <;> rw [move] <;> rfl

mutual

theorem cutOff_move : ∀ c : Component, cutOff (move f c) = cutOff c
  | leaf p l => by cases l <;> rw [move] <;> rfl
  | function p name arguments => by rw [move, cutOff, cutOff, endsInString_move arguments]
  | block p bracket content => by rw [move, cutOff, cutOff]

theorem endsInString_move : ∀ cs : List Component, endsInString (moveAll f cs) = endsInString cs
  | [] => by rw [moveAll]
  | [c] => by rw [moveAll, moveAll, endsInString, endsInString, cutOff_move c]
  | c :: d :: cs => by
    have hrest := endsInString_move (d :: cs)
    rw [moveAll, moveAll] at *
    rw [endsInString, endsInString, hrest]

end

mutual

theorem print_move : ∀ c : Component, print (move f c) = print c
  | leaf p l => by rw [move]; rfl
  | function p name arguments => by
    rw [move, print, print, endsInString_move f arguments, printAfter_move arguments]
  | block p bracket content => by rw [move, print, print, printAfter_move content]

/-- Components are printed without regard to where they stand. -/
theorem printAfter_move : ∀ (cs : List Component) (previous : Option Edge),
    printAfter previous (moveAll f cs) = printAfter previous cs
  | [], previous => by rw [moveAll]
  | c :: cs, previous => by
    rw [moveAll, printAfter_cons, printAfter_cons, edge_move, print_move c, printAfter_move cs]

end

theorem printAll_move (cs : List Component) : printAll (moveAll f cs) = printAll cs :=
  printAfter_move f cs none

theorem dropWhile_move (cs : List Component) :
    (moveAll f cs).dropWhile isWhitespace = moveAll f (cs.dropWhile isWhitespace) := by
  induction cs with
  | nil => rw [moveAll, List.dropWhile_nil, moveAll]
  | cons c cs ih =>
    rw [moveAll, List.dropWhile_cons, List.dropWhile_cons, isWhitespace_move]
    split
    · exact ih
    · rw [moveAll]

theorem strip_move (cs : List Component) : strip (moveAll f cs) = moveAll f (strip cs) := by
  rw [strip, strip, dropWhile_move, ← moveAll_reverse, dropWhile_move, moveAll_reverse]

theorem run_move (cs : List Component) (state : Importance) (index : Nat) :
    state.run index (moveAll f cs) = state.run index cs := by
  induction cs generalizing state index with
  | nil => rw [moveAll]
  | cons c cs ih =>
    have hstep : state.step index (move f c) = state.step index c := by
      cases state <;> simp only [Importance.step, isLiteral_move, isImportant_move,
        isWhitespace_move]
    rw [moveAll, Importance.run, Importance.run, hstep, ih]

theorem take_move (cs : List Component) (n : Nat) :
    (moveAll f cs).take n = moveAll f (cs.take n) := by
  induction cs generalizing n with
  | nil => rw [List.take_nil, moveAll, List.take_nil]
  | cons c cs ih =>
    cases n with
    | zero => rw [List.take_zero, List.take_zero, moveAll]
    | succ n => rw [moveAll, List.take_succ_cons, List.take_succ_cons, moveAll, ih]

/-- The parts of a declaration with the positions of its value moved. -/
def DeclarationParts.move (parts : DeclarationParts) : DeclarationParts :=
  { parts with value := moveAll f parts.value }

theorem readDeclaration_move (cs : List Component) :
    readDeclaration (moveAll f cs) = (readDeclaration cs).map (DeclarationParts.move f) := by
  have hsplit : ∀ value, splitImportant (moveAll f value)
      = (moveAll f (splitImportant value).1, (splitImportant value).2) := by
    intro value
    rw [splitImportant, splitImportant, run_move]
    split
    · rw [take_move]
    · rfl
  rw [readDeclaration, readDeclaration, dropWhile_move]
  cases cs.dropWhile isWhitespace with
  | nil => rw [moveAll]; rfl
  | cons first rest =>
    rw [moveAll]
    cases first with
    | leaf p l =>
      cases l with
      | ident name =>
        simp only [move, dropWhile_move]
        cases rest.dropWhile isWhitespace with
        | nil => rw [moveAll]; rfl
        | cons colon value =>
          simp only [moveAll, isLiteral_move, hsplit]
          split <;> rfl
      | _ => rw [move]; rfl
    | _ => rw [move]; rfl

end Move

mutual

theorem move_id : ∀ c : Component, move id c = c
  | leaf p l => by rw [move, id]
  | function p name arguments => by rw [move, moveAll_id arguments, id]
  | block p bracket content => by rw [move, moveAll_id content, id]

theorem moveAll_id : ∀ cs : List Component, moveAll id cs = cs
  | [] => by rw [moveAll]
  | c :: cs => by rw [moveAll, move_id c, moveAll_id cs]

end

/-! ## Where components stand -/

/-- Do the components start at such positions, and those in them? -/
def AreAt (P : Position → Prop) (components : List Component) : Prop :=
  ∀ x ∈ placedOf components, P x.1

section AreAt

variable {P : Position → Prop}

theorem areAt_nil : AreAt P [] := by
  intro x hx
  rw [placedOf_nil] at hx
  cases hx

theorem areAt_append {components others : List Component} :
    AreAt P (components ++ others) ↔ AreAt P components ∧ AreAt P others := by
  simp only [AreAt, placedOf_append, List.mem_append, or_imp, forall_and]

theorem areAt_singleton {c : Component} : AreAt P [c] ↔ P c.position ∧ AreAt P c.held := by
  rw [AreAt, placedOf_singleton, List.forall_mem_cons]
  exact Iff.rfl

theorem areAt_cons {c : Component} {components : List Component} :
    AreAt P (c :: components) ↔ (P c.position ∧ AreAt P c.held) ∧ AreAt P components := by
  rw [← List.singleton_append, areAt_append, areAt_singleton]

theorem AreAt.strip {components : List Component} (h : AreAt P components) :
    AreAt P (strip components) := by
  obtain ⟨lead, trail, hsplit, -⟩ := exists_strip components
  rw [hsplit, areAt_append, areAt_append] at h
  exact h.2.1

/-- What is pending behind a component was pending before it, or is the component. -/
theorem AreAt.clausesEndedBy {pending : List Component} {c : Component}
    (h : AreAt P (pending ++ [c])) :
    AreAt P (clausesEndedBy pending c).2 := by
  cases c with
  | leaf p l =>
    rw [NestedSheet.clausesEndedBy]
    split
    · exact areAt_nil
    · exact h
  | function p name arguments =>
    rw [NestedSheet.clausesEndedBy]
    exact h
  | block p bracket content =>
    rw [NestedSheet.clausesEndedBy]
    split
    · exact areAt_nil
    · exact h

end AreAt

end Component

/-! ## Reading moved components -/

/-- Does the same text stand between such positions as between those that they are moved
to, on the same lines? -/
structure Source.Moves (source source' : Source) (f : Position → Position) (P : Position → Prop) :
    Prop where
  path : source'.path = source.path
  line : ∀ p, P p → (f p).line = p.line
  slice : ∀ p q, P p → P q → source'.slice (f p) (f q) = source.slice p q

section Reading

variable {source source' : Source} {f : Position → Position} {P : Position → Prop}
  (hmoves : source.Moves source' f P)

include hmoves

theorem directiveValue_move {components : List Component} {stop : Option Position}
    (h : AreAt P components) (hstop : ∀ p ∈ stop, P p) :
    source'.directiveValue (moveAll f components) (stop.map f)
      = source.directiveValue components stop
      ∧ source'.textOf (moveAll f components) (stop.map f) = source.textOf components stop := by
  have htext : source'.textOf (moveAll f components) (stop.map f)
    = source.textOf components stop := by
    cases components with
    | nil => rw [moveAll]; cases stop <;> rfl
    | cons first rest =>
      cases stop with
      | none =>
        have hprint := printAll_move f (first :: rest)
        rw [moveAll] at hprint ⊢
        simp only [Source.textOf, Option.map_none, hprint]
      | some p =>
        have hslice := hmoves.slice first.position p (areAt_cons.1 h).1.1 (hstop p rfl)
        simp only [moveAll, Source.textOf, Option.map_some, position_move, hslice]
  exact ⟨by rw [Source.directiveValue, Source.directiveValue, htext], htext⟩

theorem originOf_move {c : Component} (h : P c.position) :
    source'.originOf (move f c) = source.originOf c := by
  rw [Source.originOf, Source.originOf, position_move, hmoves.line _ h, hmoves.path]

theorem readStatement_move {pending : List Component} {stop : Option Position}
    (h : AreAt P pending) (hstop : ∀ p ∈ stop, P p) :
    readStatement source' (moveAll f pending) (stop.map f) = readStatement source pending stop := by
  have hstrip := h.strip
  rw [readStatement, readStatement, strip_move]
  cases hcomponents : Component.strip pending with
  | nil => rw [moveAll]
  | cons first rest =>
    rw [hcomponents] at hstrip
    have hfirst := (areAt_cons.1 hstrip).1.1
    obtain ⟨hvalue, -⟩ := directiveValue_move hmoves hstrip hstop
    have hparts := readDeclaration_move f (first :: rest)
    have hprint := printAll_move f (first :: rest)
    rw [moveAll] at hvalue hparts hprint ⊢
    simp only [isAtKeyword_move, hvalue, originOf_move hmoves hfirst, hparts, hprint, position_move,
      hmoves.line _ hfirst]
    split
    · rfl
    · cases readDeclaration (first :: rest) with
      | error cause => rfl
      | ok parts =>
        simp only [Except.map, DeclarationParts.move, printAll_move]

theorem readPrelude_move {pending : List Component} {p : Position}
    (h : AreAt P pending) (hp : P p) :
    readPrelude source' (moveAll f pending) (f p) = readPrelude source pending p := by
  have hstrip := h.strip
  rw [readPrelude, readPrelude, strip_move]
  cases hcomponents : Component.strip pending with
  | nil => simp only [moveAll, hmoves.line p hp]
  | cons first rest =>
    rw [hcomponents] at hstrip
    have hfirst := (areAt_cons.1 hstrip).1.1
    have hstop : ∀ q ∈ some p, P q := fun q hq => Option.mem_some.1 hq ▸ hp
    obtain ⟨hvalue, htext⟩ := directiveValue_move hmoves hstrip hstop
    rw [moveAll, Option.map_some] at hvalue htext
    simp only [moveAll, isAtKeyword_move, hvalue, htext, originOf_move hmoves hfirst]

mutual

/-- **Moved components are read as before.** -/
theorem readContent_move : ∀ {components pending : List Component},
    AreAt P (pending ++ components) →
    readContent source' (moveAll f pending) (moveAll f components)
      = readContent source pending components
  | [], pending, h => by
    rw [List.append_nil] at h
    rw [moveAll, readContent, readContent]
    exact @readStatement_move _ _ _ _ hmoves _ none h fun p hp => absurd hp (Option.not_mem_none p)
  | c :: cs, pending, h => by
    rw [List.append_cons, areAt_append] at h
    rw [moveAll, readContent, readContent, readComponent_move h.1]
    cases hread : readComponent source pending c with
    | error e => rfl
    | ok result =>
      obtain ⟨nodes, left⟩ := result
      have hleft := h.1.clausesEndedBy
      rw [(readComponent_clauses hread).2] at hleft
      have hmore := readContent_move (areAt_append.2 ⟨hleft, h.2⟩)
      simp only [Except.map, bind, Except.bind, hmore]

theorem readComponent_move : ∀ {c : Component} {pending : List Component},
    AreAt P (pending ++ [c]) →
    readComponent source' (moveAll f pending) (move f c)
      = (readComponent source pending c).map fun result => (result.1, moveAll f result.2)
  | .leaf p l, pending, h => by
    obtain ⟨hpending, hc⟩ := areAt_append.1 h
    have hp : P p := (areAt_singleton.1 hc).1
    have hstop : ∀ q ∈ some p, P q := fun q hq => Option.mem_some.1 hq ▸ hp
    have hstatement := readStatement_move hmoves hpending hstop
    rw [Option.map_some] at hstatement
    rw [move, readComponent, readComponent]
    split
    · rw [hmoves.line p hp]
      rfl
    · -- a semicolon ends the statement, and every other leaf waits
      split
      · rw [hstatement]
        cases readStatement source pending (some p) with
        | error e => rfl
        | ok nodes => simp [Except.map, bind, Except.bind, pure, Except.pure]
      · simp [Except.map, pure, Except.pure, moveAll, move]
  | .function p name arguments, pending, h => by
    rw [move, readComponent, readComponent]
    simp [Except.map, pure, Except.pure, moveAll, move]
  | .block p bracket content, pending, h => by
    obtain ⟨hpending, hc⟩ := areAt_append.1 h
    have hp : P p := (areAt_singleton.1 hc).1
    have hcontent : AreAt P content := (areAt_singleton.1 hc).2
    have hchildren := @readContent_move content [] hcontent
    rw [moveAll_nil] at hchildren
    rw [move, readComponent, readComponent]
    split
    · rw [readPrelude_move hmoves hpending hp, hchildren]
      cases readPrelude source pending p with
      | error e => rfl
      | ok prelude =>
        cases readContent source [] content with
        | error e => rfl
        | ok children => simp [Except.map, bind, Except.bind, pure, Except.pure]
    · simp [Except.map, pure, Except.pure, moveAll, move]

end

end Reading

end NestedSheet
