import NestedSheet.Proofs.Content
import NestedSheet.Proofs.Preludes

/-!
# Where components stand

The positions of components are counted while the text is scanned, and offsets are found
again from them by the line table of the source.  This module says that both agree for
every component of a text, at any depth: the components in order are some of the stretches
of the text in order, and the offset of each is the index that its stretch starts at
(`sublist_indexed`).

So the text of a prelude is cut out of the source exactly, from the first character of its
first component to the character before the bracket or the semicolon that ends it
(`exists_cut`), and the line of a node is the line that its first component is on.

Main results:

* `exists_placed_run`: matching brackets keeps the lexemes in their order.
* `landmarks_clauses`: where clauses start and end.
* `positions_exact`: offsets, slices and lines of a source.
-/

namespace NestedSheet

open Component

/-! ## Components in order -/

/-- Is the lexeme a bracket that closes nothing? -/
def Lexeme.isUnmatched : Lexeme → Bool
  | .leaf (.unmatched _) => true
  | _ => false

namespace Component

mutual

/-- A component and the components in it, each before what it holds. -/
def inOrder : Component → List Component
  | leaf p l => [leaf p l]
  | function p name arguments => function p name arguments :: inOrderOf arguments
  | block p bracket content => block p bracket content :: inOrderOf content

/-- Components and the components in them, each before what it holds. -/
def inOrderOf : List Component → List Component
  | [] => []
  | c :: cs => inOrder c ++ inOrderOf cs

end

/-- The lexeme that a component starts with. -/
def firstLexeme : Component → Lexeme
  | leaf _ (.unmatched bracket) => .closing bracket
  | leaf _ l => .leaf l
  | function _ name _ => .function name
  | block _ bracket _ => .opening bracket

/-- The lexeme that a component starts with, and where. -/
def placed (c : Component) : Position × Lexeme :=
  (c.position, c.firstLexeme)

/-- Where the components start that components are made of. -/
def placedOf (components : List Component) : List (Position × Lexeme) :=
  (inOrderOf components).map placed

@[simp] theorem placedOf_nil : placedOf [] = [] := by
  rw [placedOf, inOrderOf, List.map_nil]

theorem placedOf_cons (c : Component) (cs : List Component) :
    placedOf (c :: cs) = (inOrder c).map placed ++ placedOf cs := by
  rw [placedOf, inOrderOf, List.map_append, placedOf]

@[simp] theorem placedOf_append (components others : List Component) :
    placedOf (components ++ others) = placedOf components ++ placedOf others := by
  induction components with
  | nil => rw [placedOf_nil, List.nil_append, List.nil_append]
  | cons c cs ih => rw [List.cons_append, placedOf_cons, placedOf_cons, ih, List.append_assoc]

/-- The components that a component holds. -/
def held : Component → List Component
  | leaf _ _ => []
  | function _ _ arguments => arguments
  | block _ _ content => content

@[simp] theorem placedOf_singleton (c : Component) :
    placedOf [c] = c.placed :: placedOf c.held := by
  rw [placedOf_cons, placedOf_nil, List.append_nil]
  cases c with
  | leaf p l => rw [inOrder, held, placedOf_nil, List.map_singleton]
  | function p name arguments => rw [inOrder, held, List.map_cons, placedOf]
  | block p bracket content => rw [inOrder, held, List.map_cons, placedOf]

theorem placed_leaf {p : Position} {l : Leaf} (h : Lexeme.isUnmatched (.leaf l) = false) :
    (leaf p l).placed = (p, .leaf l) := by
  cases l with
  | unmatched bracket => cases h
  | _ => rfl

/-! ## Matching brackets -/

/-- Where the components of open frames start. -/
def placedIn : List Frame → List (Position × Lexeme)
  | [] => []
  | frame :: frames => placedIn frames ++ placedOf frame.before.reverse
      ++ [(frame.opener.close frame.position []).placed]

/-- Closing a frame keeps where components start. -/
theorem placedOf_close (frame : Frame) (inside : List Component) (frames : List Frame) :
    placedIn frames ++ placedOf (frame.close inside).reverse
      = placedIn (frame :: frames) ++ placedOf inside.reverse := by
  obtain ⟨p, opener, before⟩ := frame
  rw [Frame.close, List.reverse_cons, placedOf_append, placedOf_singleton, placedIn]
  cases opener <;> simp [Opener.close, placed, position, firstLexeme, held]

theorem placedOf_closeAll (frames : List Frame) (inside : List Component) :
    placedOf (closeAll frames inside) = placedIn frames ++ placedOf inside.reverse := by
  induction frames generalizing inside with
  | nil => rfl
  | cons frame frames ih => rw [← placedOf_close, ← ih]; rfl

end Component

namespace Nesting

/-- Where the components of what is open start. -/
def placed (s : Nesting) : List (Position × Lexeme) :=
  placedIn s.frames ++ placedOf s.inside.reverse

variable {s s' : Nesting}

/-- One step puts the lexeme behind what is placed.  Comments and the brackets that close
something start no component. -/
theorem Step.placed {p : Position} {lexeme : Lexeme} (h : Step p lexeme s s')
    (hlexeme : lexeme.isUnmatched = false) :
    s'.placed = s.placed ∨ s'.placed = s.placed ++ [(p, lexeme)] := by
  cases h with
  | leaf l => exact Or.inr (by simp [Nesting.placed, placed_leaf hlexeme, held])
  | comment text => exact Or.inl rfl
  | opens opener =>
    -- what is open counts as placed
    refine Or.inr ?_
    cases opener <;>
      simp [Nesting.placed, placedIn, Opener.close, Opener.lexeme, Component.placed, position,
        firstLexeme]
  | closes => exact Or.inl (placedOf_close _ _ _)
  | unmatched h =>
    exact Or.inr (by simp [Nesting.placed, Component.placed, position, firstLexeme, held])

/-- **Matching brackets keeps the lexemes in their order.** -/
theorem exists_placed_run (s : Nesting) {list : List (Position × Lexeme)}
    (hlist : ∀ x ∈ list, x.2.isUnmatched = false) :
    ∃ kept, kept.Sublist list ∧ (s.run list).placed = s.placed ++ kept := by
  induction list generalizing s with
  | nil => exact ⟨[], .slnil, (List.append_nil _).symm⟩
  | cons x list ih =>
    obtain ⟨hx, hlist⟩ := List.forall_mem_cons.1 hlist
    obtain ⟨kept, hkept, heq⟩ := ih (s.advance x.1 x.2) hlist
    rcases (s.step_advance x.1 x.2).placed hx with hstep | hstep
    · exact ⟨kept, hkept.cons _, by rw [run_cons, heq, hstep]⟩
    · refine ⟨x :: kept, hkept.cons_cons _, ?_⟩
      rw [run_cons, heq, hstep, List.append_assoc, List.singleton_append]

end Nesting

/-- No stretch of a text is a bracket that closes nothing: this is found out only when
brackets are matched. -/
theorem Stretch.isUnmatched_ofText {t : Text} : ∀ a ∈ ofText t, a.lexeme.isUnmatched = false := by
  intro a ha
  obtain ⟨c, u, rest, -, hnext⟩ := exists_next a ha
  unfold Lexeme.isUnmatched
  split
  · next bracket hlexeme =>
    rw [hlexeme] at hnext
    exact absurd hnext Lexeme.next_ne_unmatched
  · rfl

/-- **The components of a text start with lexemes of the text, in their order.** -/
theorem Component.placedOf_ofText (t : Text) :
    (placedOf (ofText t)).Sublist (Stretch.located {} (Stretch.ofText t)) := by
  have hlist : ∀ x ∈ Lexeme.scan {} t, x.2.isUnmatched = false := by
    intro x hx
    have hlexeme := List.mem_map_of_mem (f := Prod.snd) hx
    rw [Stretch.scan_eq_located, Stretch.map_snd_located] at hlexeme
    obtain ⟨a, ha, heq⟩ := List.mem_map.1 hlexeme
    rw [← heq]
    exact Stretch.isUnmatched_ofText a ha
  obtain ⟨kept, hkept, heq⟩ := Nesting.exists_placed_run {} hlist
  have hplaced : placedOf (ofText t) = kept := by
    rw [ofText_eq_run, Nesting.components, placedOf_closeAll]
    exact heq
  rwa [hplaced, ← Stretch.scan_eq_located]

/-! ## The marks of clauses -/

/-- Where a clause starts, and the mark that ends it. -/
def Clause.landmarks (clause : Clause) : List (Position × Lexeme) :=
  (clause.components.head?.map placed).toList ++ clause.ending.mark?.toList

theorem Clause.placed_mem_landmarks {clause : Clause} {first : Component}
    (h : first ∈ clause.components.head?) : first.placed ∈ clause.landmarks := by
  rw [Clause.landmarks, Option.mem_def.1 h]
  exact List.mem_cons_self

/-- Where the clauses of some components start is where the first component after the
whitespace starts. -/
theorem landmarks_clauseOf (components : List Component) (ending : Clause.Ending)
    {after : List (Position × Lexeme)} (hafter : ending.mark?.toList.Sublist after) :
    ((clauseOf components ending).flatMap Clause.landmarks).Sublist (placedOf components ++ after) := by
  obtain ⟨lead, trail, hsplit, -⟩ := exists_strip components
  unfold clauseOf
  split
  · exact List.nil_sublist _
  · next first rest hstrip =>
    rw [hstrip] at hsplit
    rw [List.flatMap_singleton, Clause.landmarks]
    refine .append ?_ hafter
    -- only whitespace stands before the first component
    rw [hsplit, placedOf_append, placedOf_append, ← List.singleton_append, placedOf_append,
      placedOf_singleton]
    exact .trans (by simp) (List.sublist_append_right _ _)

mutual

/-- **The marks of clauses come in their order**, a block after the mark that it opens with. -/
theorem landmarks_clauses : ∀ (pending components : List Component),
    ((clauses pending components).flatMap Clause.landmarks).Sublist (placedOf (pending ++ components))
  | pending, [] => by
    rw [clauses, List.append_nil, ← List.append_nil (placedOf pending)]
    exact landmarks_clauseOf pending .nothing (List.nil_sublist [])
  | pending, c :: cs => by
    rw [clauses, List.flatMap_append, List.append_cons, placedOf_append]
    have hrest := landmarks_clauses (clausesEndedBy pending c).2 cs
    rw [placedOf_append] at hrest
    refine ((List.Sublist.refl _).append hrest).trans ?_
    rw [← List.append_assoc]
    exact (landmarks_clausesEndedBy pending c).append (List.Sublist.refl _)

theorem landmarks_clausesEndedBy : ∀ (pending : List Component) (c : Component),
    ((clausesEndedBy pending c).1.flatMap Clause.landmarks
      ++ placedOf (clausesEndedBy pending c).2).Sublist (placedOf (pending ++ [c]))
  | pending, .leaf p l => by
    rw [clausesEndedBy]
    split
    · next hl =>
      subst hl
      rw [placedOf_nil, List.append_nil, placedOf_append, placedOf_singleton]
      exact landmarks_clauseOf pending (.semicolon p) (List.Sublist.refl _)
    · exact List.Sublist.refl _
  | pending, .function p name arguments => by
    rw [clausesEndedBy]
    exact List.Sublist.refl _
  | pending, .block p bracket content => by
    rw [clausesEndedBy]
    split
    · next hcurly =>
      subst hcurly
      -- the mark of the block stands before the marks of the clauses in it
      have hinside := landmarks_clauses [] content
      rw [List.nil_append] at hinside
      rw [placedOf_nil, List.append_nil, List.flatMap_append, placedOf_append, placedOf_singleton,
        List.append_cons]
      exact (landmarks_clauseOf pending (.block p) (List.Sublist.refl _)).append hinside
    · exact List.Sublist.refl _

end

/-! ## Lines and offsets -/

theorem Position.line_after (p : Position) (t : Text) : (p.after t).line = p.line + t.count '\n' := by
  induction t generalizing p with
  | nil => rfl
  | cons c cs ih =>
    have hafter : p.after (c :: cs) = (p.next c).after cs := rfl
    rw [hafter, ih, Position.next, List.count_cons]
    split
    · next hc =>
      rw [if_pos (beq_iff_eq.2 hc)]
      show p.line + 1 + cs.count '\n' = p.line + (cs.count '\n' + 1)
      omega
    · next hc =>
      rw [if_neg (by simpa using hc)]
      rfl

theorem Position.column_after {p : Position} (hp : 0 < p.column) (t : Text) : 0 < (p.after t).column := by
  induction t generalizing p with
  | nil => exact hp
  | cons c cs ih =>
    refine ih (p := p.next c) ?_
    unfold Position.next
    split
    · exact Nat.one_pos
    · exact Nat.succ_pos _

/-- The line table of a text has a line for every newline. -/
theorem length_lineStartsAfter (offset : Nat) (t : Text) :
    (lineStartsAfter offset t).length = t.count '\n' := by
  induction t generalizing offset with
  | nil => rfl
  | cons c cs ih =>
    rw [lineStartsAfter, List.count_cons]
    split
    · next hc => rw [List.length_cons, ih, hc]; rfl
    · next hc => simp [ih, hc]

/-- Later lexemes are on the same line or on a later one. -/
theorem Stretch.line_le_of_mem {p : Position} {stretches : List Stretch} {x : Position × Lexeme}
    (hx : x ∈ located p stretches) : p.line ≤ x.1.line := by
  induction stretches generalizing p with
  | nil => cases hx
  | cons a stretches ih =>
    rcases List.mem_cons.1 hx with rfl | hx
    · exact Nat.le_refl _
    · exact (p.line_le_after a.text).trans (ih hx)

theorem Stretch.pairwise_located (p : Position) (stretches : List Stretch) :
    (located p stretches).Pairwise fun x y => x.1.line ≤ y.1.line := by
  induction stretches generalizing p with
  | nil => exact .nil
  | cons a stretches ih =>
    exact .cons (fun y hy => (p.line_le_after a.text).trans (line_le_of_mem hy)) (ih _)

/-- The lexemes of stretches with the offsets that they start at, the first of which is
given. -/
def Stretch.indexed (offset : Nat) : List Stretch → List (Nat × Lexeme)
  | [] => []
  | a :: stretches => (offset, a.lexeme) :: indexed (offset + a.text.length) stretches

namespace Source

variable {path : Option Text} {t : Text}

/-- The offsets of a source are the indices of its stretches. -/
theorem map_offset_located {pre : Text} {stretches : List Stretch}
    (h : (ofText path t).text = pre ++ Stretch.textOf stretches) :
    ((Stretch.located (Position.behind pre) stretches).map fun x => ((ofText path t).offset x.1, x.2))
      = Stretch.indexed pre.length stretches := by
  induction stretches generalizing pre with
  | nil => rfl
  | cons a stretches ih =>
    rw [Stretch.textOf_cons] at h
    have hrest := ih (h.trans (List.append_assoc ..).symm)
    rw [Position.behind_append, List.length_append] at hrest
    rw [Stretch.located, List.map_cons, hrest, offset_after h, Stretch.indexed]

theorem length_starts : (ofText path t).starts.length = 1 + (ofText path t).text.count '\n' := by
  rw [ofText, List.length_cons, length_lineStartsAfter, Nat.add_comm]

/-- The line of a position is counted by the newlines before it, and is in the line table. -/
theorem line_behind {pre rest : Text} (h : (ofText path t).text = pre ++ rest) :
    (Position.behind pre).line
        = 1 + ((ofText path t).text.take ((ofText path t).offset (Position.behind pre))).count '\n'
      ∧ (Position.behind pre).line ≤ (ofText path t).starts.length
      ∧ 0 < (Position.behind pre).column := by
  have hline : (Position.behind pre).line = 1 + pre.count '\n' := Position.line_after {} pre
  refine ⟨?_, ?_, Position.column_after Nat.one_pos pre⟩
  · rw [offset_after h, h, List.take_left, hline]
  · rw [hline, length_starts, h, List.count_append]
    omega

/-- Every component of a source stands behind some stretches of the text, and starts with
the lexeme of the next one. -/
theorem exists_behind {x : Position × Lexeme} (hx : x ∈ placedOf (Component.ofText (ofText path t).text)) :
    ∃ before a after, Stretch.ofText (ofText path t).text = before ++ a :: after
      ∧ x = (Position.behind (Stretch.textOf before), a.lexeme) :=
  Stretch.exists_of_mem_located ((placedOf_ofText _).subset hx)

theorem text_eq {before after : List Stretch}
    (h : Stretch.ofText (ofText path t).text = before ++ after) :
    (ofText path t).text = Stretch.textOf before ++ Stretch.textOf after := by
  rw [← Stretch.textOf_append, ← h, Stretch.textOf_ofText]

/-- Every component of a source is in the line table. -/
theorem line_of_mem {c : Component} (hc : c ∈ inOrderOf (Component.ofText (ofText path t).text)) :
    0 < c.position.line ∧ c.position.line ≤ (ofText path t).starts.length ∧ 0 < c.position.column := by
  obtain ⟨before, a, after, hsplit, heq⟩ := exists_behind (List.mem_map_of_mem hc)
  have hposition : c.position = Position.behind (Stretch.textOf before) := congrArg Prod.fst heq
  obtain ⟨hline, hle, hcolumn⟩ := line_behind (text_eq hsplit)
  rw [hposition]
  exact ⟨by omega, hle, hcolumn⟩

/-- The line of a clause is counted by the newlines before it. -/
theorem line_of_clause {clause : Clause}
    (hclause : clause ∈ clauses [] (Component.ofText (ofText path t).text)) {first : Component}
    (hfirst : first ∈ clause.components.head?) : first.position.line
      = 1 + ((ofText path t).text.take ((ofText path t).offset first.position)).count '\n' := by
  have hmem := List.mem_flatMap.2 ⟨clause, hclause, Clause.placed_mem_landmarks hfirst⟩
  obtain ⟨before, a, after, hsplit, heq⟩ := exists_behind ((landmarks_clauses [] _).subset hmem)
  have hposition : first.position = Position.behind (Stretch.textOf before) := congrArg Prod.fst heq
  rw [hposition]
  exact (line_behind (text_eq hsplit)).1

/-- **Clauses are cut out exactly.**  The text of a clause runs from the first character of
its first component up to the mark that ends it. -/
theorem exists_cut {clause : Clause} (hclause : clause ∈ clauses [] (Component.ofText (ofText path t).text))
    {first : Component} (hfirst : first ∈ clause.components.head?) {mark : Position × Lexeme}
    (hmark : mark ∈ clause.ending.mark?) :
    ∃ before a inside m after,
      Stretch.ofText (ofText path t).text = before ++ ((a :: inside) ++ m :: after)
        ∧ a.lexeme = first.firstLexeme ∧ m.lexeme = mark.2
        ∧ first.position = Position.behind (Stretch.textOf before)
        ∧ (ofText path t).slice first.position mark.1 = Stretch.textOf (a :: inside) := by
  -- both marks of the clause are among the marks of all clauses, one behind the other
  have hpair : [first.placed, mark].Sublist
      (Stretch.located {} (Stretch.ofText (ofText path t).text)) := by
    have hlandmarks : clause.landmarks = [first.placed, mark] := by
      rw [Clause.landmarks, Option.mem_def.1 hfirst, Option.mem_def.1 hmark]
      rfl
    rw [← hlandmarks]
    refine .trans ?_ (placedOf_ofText _)
    refine .trans ?_ (landmarks_clauses [] _)
    exact List.sublist_flatten_of_mem (List.mem_map_of_mem hclause)
  -- so the stretches can be split at the first component, and again at the mark
  obtain ⟨lead, trail, hsplit, hlead, htrail⟩ := List.cons_sublist_iff.1 hpair
  obtain ⟨u, v, rfl⟩ := List.append_of_mem hlead
  obtain ⟨w, z, rfl⟩ := List.append_of_mem (List.singleton_sublist.1 htrail)
  have hsplit' : Stretch.located {} (Stretch.ofText (ofText path t).text)
      = u ++ ((first.placed :: (v ++ w)) ++ mark :: z) := by
    rw [hsplit]
    simp
  obtain ⟨before, stretches, hbefore, -, hstretches⟩ := Stretch.located_eq_append hsplit'
  obtain ⟨stretches, after, rfl, hlocated, hafter⟩ := Stretch.located_eq_append hstretches
  cases stretches with
  | nil => cases hlocated
  | cons a inside =>
  cases after with
  | nil => cases hafter
  | cons m after =>
  obtain ⟨hposition, hlexeme⟩ := Prod.mk.inj (List.cons.inj hlocated).1
  obtain ⟨hstop, hend⟩ := Prod.ext_iff.1 (List.cons.inj hafter).1
  refine ⟨before, a, inside, m, after, hbefore, hlexeme, hend, hposition.symm, ?_⟩
  -- the two offsets cut out what stands between these places
  have htext := text_eq hbefore
  rw [Stretch.textOf_append, ← List.append_assoc] at htext
  rw [← slice_after htext, Position.behind_append, ← hstop, ← hposition]
  rfl

end Source

/-! ## The lines of nodes -/

/-- The line that a node comes from. -/
def Node.line? : Node → Option Int
  | rule r _ => r.origin.line
  | declaration d => d.origin.line
  | directive d => d.origin.line
  | block d _ => d.origin.line
  | sheet _ _ => none

/-- A node comes from the line that its clause starts on. -/
theorem Clause.ReadAs.line {source : Source} {clause : Clause} {node : Node}
    (h : clause.ReadAs source node) :
    ∃ first ∈ clause.components.head?, node.line? = some (first.position.line : Int) := by
  cases h <;> exact ⟨_, rfl, rfl⟩

/-- Nodes that clauses are read as, which start on later and later lines, come from later
and later lines. -/
theorem pairwise_lines {source : Source} {list : List Clause} {nodes : List Node}
    (h : List.Forall₂ (Clause.ReadAs source) list nodes)
    (hlist : (list.flatMap Clause.landmarks).Pairwise fun x y => x.1.line ≤ y.1.line) :
    nodes.Pairwise fun node next => ∀ line ∈ node.line?, ∀ other ∈ next.line?, line ≤ other := by
  induction h with
  | nil => exact .nil
  | cons hread hreads ih =>
    rw [List.flatMap_cons, List.pairwise_append] at hlist
    obtain ⟨-, hlist, hbefore⟩ := hlist
    refine .cons ?_ (ih hlist)
    -- a later node is read from a later clause, and each has the line that its clause starts on
    intro next hnext line hline other hother
    obtain ⟨clause, hclause, hlater⟩ := exists_clause_of_mem hreads hnext
    obtain ⟨first, hfirst, heq⟩ := hread.line
    obtain ⟨second, hsecond, heq'⟩ := hlater.line
    rw [heq] at hline
    rw [heq'] at hother
    obtain rfl := Option.some.inj hline
    obtain rfl := Option.some.inj hother
    have hle := hbefore first.placed (Clause.placed_mem_landmarks hfirst) second.placed
      (List.mem_flatMap.2 ⟨clause, hclause, Clause.placed_mem_landmarks hsecond⟩)
    exact Int.ofNat_le.2 hle

/-! ## The positions of a source -/

/-- **Positions are exact.**  Every component of a source, at any depth, is in the line
table, and its offset is the index of the stretch that it starts with.  What is cut out for
a clause runs from its first component to the mark that ends it.  If the source is read,
the line of each node is the line of the first component of its clause, counted by the
newlines before it, and lines do not decrease from node to node. -/
theorem positions_exact (path : Option Text) (t : Text) :
    let source := Source.ofText path t
    let components := Component.ofText source.text
    (∀ c ∈ inOrderOf components,
        0 < c.position.line ∧ c.position.line ≤ source.starts.length ∧ 0 < c.position.column)
      ∧ ((inOrderOf components).map fun c => (source.offset c.position, c.firstLexeme)).Sublist
        (Stretch.indexed 0 (Stretch.ofText source.text))
      ∧ (∀ clause ∈ clauses [] components, ∀ first ∈ clause.components.head?,
        ∀ mark ∈ clause.ending.mark?, ∃ before a inside m after,
          Stretch.ofText source.text = before ++ ((a :: inside) ++ m :: after)
            ∧ a.lexeme = first.firstLexeme ∧ m.lexeme = mark.2
            ∧ source.offset first.position = (Stretch.textOf before).length
            ∧ source.slice first.position mark.1 = Stretch.textOf (a :: inside))
      ∧ ∀ sheet, Sheet.read path t = .ok sheet →
        List.Forall₂ (fun clause node => clause.ReadAs source node
          ∧ ∃ first ∈ clause.components.head?, node.line?
            = some (1 + ((source.text.take (source.offset first.position)).count '\n' : Int)))
          (clauses [] components) (Node.inOrderOf sheet.children)
        ∧ (Node.inOrderOf sheet.children).Pairwise fun node next =>
          ∀ line ∈ node.line?, ∀ other ∈ next.line?, line ≤ other := by
  intro source components
  refine ⟨fun c hc => Source.line_of_mem hc, ?_,
    fun clause hclause first hfirst mark hmark => ?_, fun sheet hsheet => ?_⟩
  · have hsublist := (placedOf_ofText source.text).map fun x => (source.offset x.1, x.2)
    have htext : source.text = [] ++ Stretch.textOf (Stretch.ofText source.text) :=
      (Stretch.textOf_ofText _).symm
    have hindexed := Source.map_offset_located htext
    rw [placedOf, List.map_map] at hsublist
    exact hindexed ▸ hsublist
  · -- the offset of the first component is the length of what is before it
    obtain ⟨before, a, inside, m, after, hsplit, ha, hm, hposition, hslice⟩ :=
      Source.exists_cut hclause hfirst hmark
    refine ⟨before, a, inside, m, after, hsplit, ha, hm, ?_, hslice⟩
    rw [hposition, Source.offset_after (Source.text_eq hsplit)]
  · have hread := Sheet.read_clauses hsheet
    have hlines : ∀ clause ∈ clauses [] components, ∀ first ∈ clause.components.head?,
        first.position.line
          = 1 + (source.text.take (source.offset first.position)).count '\n' :=
      fun _ hclause _ => Source.line_of_clause hclause
    refine ⟨((List.forall₂_and_left _ _).2 ⟨hlines, hread⟩).imp ?_, ?_⟩
    · rintro clause node ⟨hline, hread⟩
      obtain ⟨first, hfirst, heq⟩ := hread.line
      refine ⟨hread, first, hfirst, ?_⟩
      rw [heq, hline first hfirst]
      rfl
    · -- the marks of the clauses are some of the lexemes, whose lines do not decrease
      have hlocated := Stretch.pairwise_located {} (Stretch.ofText source.text)
      exact pairwise_lines hread
        (hlocated.sublist ((landmarks_clauses [] components).trans (placedOf_ofText source.text)))

/-- All kinds of line endings, one of them in a comment, and a character that is replaced. -/
theorem positions_exact_mixed : ∃ sheet,
    Sheet.read none "a\r\n/*\x0c*/\x7b\rb:c\x7d\n@\x00;".toList = .ok sheet
      ∧ (Node.inOrderOf sheet.children).map Node.line? = [some 1, some 4, some 5]
      ∧ (Node.inOrderOf sheet.children).Pairwise fun node next =>
        ∀ line ∈ node.line?, ∀ other ∈ next.line?, line ≤ other := by
  have hread : Sheet.read none "a\r\n/*\x0c*/\x7b\rb:c\x7d\n@\x00;".toList = .ok { children := [
      .rule { lines := [['a']], origin := ⟨some 1, none⟩ }
        [.declaration { name := ['b'], value := ['c'], origin := ⟨some 4, none⟩ }],
      .directive { value := ['@', '\ufffd'], origin := ⟨some 5, none⟩ }] } := by decide +kernel
  exact ⟨_, hread, rfl, ((positions_exact none _).2.2.2 _ hread).2⟩

end NestedSheet
