import NestedSheet.Proofs.CommentNotes
import NestedSheet.Proofs.Exchanges
import NestedSheet.Proofs.Movement

/-!
# A semicolon before a bracket

What changes when a semicolon is put before the bracket that closes a block?  The lexemes
stay what they are, and so brackets are matched as before: the components have one leaf more,
at the end of the block, and those behind it have moved (`Component.Completed`).  So all
statements are read as before but the last one of the block, which the semicolon now ends
(`readContent_completed`).
-/

namespace NestedSheet

open Component

/-! ## Open brackets -/

/-- Does a frame start at such a position, with components at such positions before it? -/
def Frame.IsAt (P : Position → Prop) (frame : Frame) : Prop :=
  P frame.position ∧ AreAt P frame.before

namespace Component

section IsAt

variable {P : Position → Prop}

theorem areAt_reverse {components : List Component} :
    AreAt P components.reverse ↔ AreAt P components := by
  induction components with
  | nil => exact Iff.rfl
  | cons c cs ih => rw [List.reverse_cons, areAt_append, ih, areAt_singleton, areAt_cons, and_comm]

theorem areAt_leaf {p : Position} {l : Leaf} (hp : P p) {components : List Component}
    (h : AreAt P components) : AreAt P (.leaf p l :: components) :=
  areAt_cons.2 ⟨⟨hp, areAt_nil⟩, h⟩

theorem areAt_close {frame : Frame} (hframe : frame.IsAt P) {inside : List Component}
    (hinside : AreAt P inside) : AreAt P (frame.close inside) := by
  obtain ⟨p, opener, before⟩ := frame
  refine areAt_cons.2 ⟨?_, hframe.2⟩
  cases opener <;> exact ⟨hframe.1, areAt_reverse.2 hinside⟩

end IsAt

end Component

/-- Do all frames and components start at such positions? -/
structure Nesting.IsAt (P : Position → Prop) (s : Nesting) : Prop where
  frames : ∀ frame ∈ s.frames, frame.IsAt P
  inside : AreAt P s.inside

section IsAt

variable {P : Position → Prop} {s : Nesting}

theorem Nesting.Step.isAt {p : Position} {lexeme : Lexeme} {s' : Nesting}
    (h : Nesting.Step p lexeme s s') (hp : P p) (hs : s.IsAt P) : s'.IsAt P := by
  cases h with
  | leaf l => exact ⟨hs.frames, areAt_leaf hp hs.inside⟩
  | comment text => exact hs
  | opens opener => exact ⟨List.forall_mem_cons.2 ⟨⟨hp, hs.inside⟩, hs.frames⟩, areAt_nil⟩
  | closes =>
    obtain ⟨hframe, hframes⟩ := List.forall_mem_cons.1 hs.frames
    exact ⟨hframes, areAt_close hframe hs.inside⟩
  | unmatched h => exact ⟨hs.frames, areAt_leaf hp hs.inside⟩

theorem Nesting.IsAt.run (h : s.IsAt P) {list : List (Position × Lexeme)}
    (hlist : ∀ x ∈ list, P x.1) :
    (s.run list).IsAt P := by
  induction list generalizing s with
  | nil => exact h
  | cons x list ih =>
    obtain ⟨hx, hlist⟩ := List.forall_mem_cons.1 hlist
    exact ih ((s.step_advance x.1 x.2).isAt hx h) hlist

end IsAt

/-! ## One leaf more -/

/-- A semicolon. -/
def semicolon (p : Position) : Component :=
  .leaf p (.literal [';'])

/-- The frame with its positions moved. -/
def Frame.move (f : Position → Position) (frame : Frame) : Frame :=
  ⟨f frame.position, frame.opener, moveAll f frame.before⟩

theorem Opener.close_move (f : Position → Position) (opener : Opener) (p : Position)
    (content : List Component) :
    Component.move f (opener.close p content) = opener.close (f p) (moveAll f content) := by
  cases opener <;> rw [close, close, Component.move]

theorem Frame.close_move (f : Position → Position) (frame : Frame) (inside : List Component) :
    (frame.move f).close (moveAll f inside) = moveAll f (frame.close inside) := by
  rw [close, close, moveAll, Opener.close_move, moveAll_reverse, Frame.move]

section Completed

variable (early late : Position → Prop) (f : Position → Position) (last : List Component)
  (p₀ : Position)

/-- Components among which the content of a block ends with a semicolon that was not there.
What stands before it has stayed, what stands behind it has moved. -/
inductive Completed : List Component → List Component → Prop
  | last (h : AreAt early last) : Completed last (last ++ [semicolon p₀])
  | block {before content content' after : List Component} {p : Position}
    (hbefore : AreAt early before) (hp : early p) (hcontent : Completed content content')
    (hafter : AreAt late after) :
    Completed (before ++ .block p .curly content :: after)
      (before ++ .block p .curly content' :: moveAll f after)

/-- The same of components of which the latest comes first. -/
inductive Around : List Component → List Component → Prop
  | block {behind content content' before : List Component} {p : Position}
    (hbehind : AreAt late behind) (hp : early p)
    (hcontent : Completed early late f last p₀ content content') (hbefore : AreAt early before) :
    Around (behind ++ .block p .curly content :: before)
      (moveAll f behind ++ .block p .curly content' :: before)

/-- Is the frame one of the blocks around the semicolon? -/
def Frame.IsOuter (early : Position → Prop) (frame : Frame) : Prop :=
  frame.opener = .block .curly ∧ frame.IsAt early

/-- What is open with the semicolon and without it.  The block with the semicolon is closed.
It stands in the innermost frame, or before one that was opened behind it. -/
inductive Related : Nesting → Nesting → Prop
  | here {frames : List Frame} {inside inside' : List Component}
    (hframes : ∀ frame ∈ frames, frame.IsOuter early)
    (hinside : Around early late f last p₀ inside inside') :
    Related ⟨frames, inside⟩ ⟨frames, inside'⟩
  | further {inner frames : List Frame} {q : Position} {opener : Opener}
    {before before' inside : List Component}
    (hinner : ∀ frame ∈ inner, frame.IsAt late) (hq : late q)
    (hbefore : Around early late f last p₀ before before')
    (hframes : ∀ frame ∈ frames, frame.IsOuter early) (hinside : AreAt late inside) :
    Related ⟨inner ++ ⟨q, opener, before⟩ :: frames, inside⟩
      ⟨inner.map (Frame.move f) ++ ⟨f q, opener, before'⟩ :: frames, moveAll f inside⟩

end Completed

section Related

variable {early late : Position → Prop} {f : Position → Position} {last : List Component}
  {p₀ : Position}

theorem Around.cons {components components' : List Component}
    (h : Around early late f last p₀ components components') {c : Component}
    (hc : AreAt late [c]) :
    Around early late f last p₀ (c :: components) (Component.move f c :: components') := by
  obtain ⟨hbehind, hp, hcontent, hbefore⟩ := h
  have hcons := @Around.block early late f last p₀ (c :: _) _ _ _ _
    (areAt_cons.2 ⟨areAt_singleton.1 hc, hbehind⟩) hp hcontent hbefore
  rwa [moveAll, List.cons_append, List.cons_append] at hcons

theorem Around.completed {components components' : List Component}
    (h : Around early late f last p₀ components components') :
    Completed early late f last p₀ components.reverse components'.reverse := by
  obtain ⟨hbehind, hp, hcontent, hbefore⟩ := h
  have hcompleted := Completed.block (areAt_reverse.2 hbefore) hp hcontent (areAt_reverse.2 hbehind)
  rw [moveAll_reverse] at hcompleted
  simpa using hcompleted

theorem Related.leaf {s s' : Nesting} (h : Related early late f last p₀ s s')
    {p : Position} (hp : late p) (l : Leaf) :
    Related early late f last p₀ ⟨s.frames, .leaf p l :: s.inside⟩
      ⟨s'.frames, .leaf (f p) l :: s'.inside⟩ := by
  cases h with
  | here hframes hinside =>
    have hcons := hinside.cons (c := .leaf p l) (areAt_leaf hp areAt_nil)
    rw [Component.move] at hcons
    exact .here hframes hcons
  | @further inner frames q opener before before' inside hinner hq hbefore hframes hinside =>
    have hfurther : Related early late f last p₀
        ⟨inner ++ ⟨q, opener, before⟩ :: frames, .leaf p l :: inside⟩
        ⟨inner.map (Frame.move f) ++ ⟨f q, opener, before'⟩ :: frames,
          moveAll f (.leaf p l :: inside)⟩ :=
      .further hinner hq hbefore hframes (areAt_leaf hp hinside)
    rwa [moveAll, Component.move] at hfurther

theorem Related.opens {s s' : Nesting} (h : Related early late f last p₀ s s')
    {p : Position} (hp : late p) (opener : Opener) :
    Related early late f last p₀ ⟨⟨p, opener, s.inside⟩ :: s.frames, []⟩
      ⟨⟨f p, opener, s'.inside⟩ :: s'.frames, []⟩ := by
  cases h with
  | @here frames before before' hframes hbefore =>
    have hfurther : Related early late f last p₀ ⟨⟨p, opener, before⟩ :: frames, []⟩
        ⟨⟨f p, opener, before'⟩ :: frames, moveAll f []⟩ :=
      .further (List.forall_mem_nil _) hp hbefore hframes areAt_nil
    rwa [moveAll_nil] at hfurther
  | @further inner frames q outer before before' inside hinner hq hbefore hframes hinside =>
    have hfurther : Related early late f last p₀
        ⟨(⟨p, opener, inside⟩ :: inner) ++ ⟨q, outer, before⟩ :: frames, []⟩
        ⟨(Frame.mk p opener inside :: inner).map (Frame.move f) ++ ⟨f q, outer, before'⟩ :: frames,
          moveAll f []⟩ :=
      .further (List.forall_mem_cons.2 ⟨⟨hp, hinside⟩, hinner⟩) hq hbefore hframes areAt_nil
    rwa [moveAll_nil] at hfurther

theorem Related.closes {frame : Frame} {frames : List Frame} {inside : List Component}
    {s' : Nesting} (h : Related early late f last p₀ ⟨frame :: frames, inside⟩ s') :
    ∃ frame' frames' inside', s' = ⟨frame' :: frames', inside'⟩ ∧ frame'.opener = frame.opener
      ∧ Related early late f last p₀ ⟨frames, frame.close inside⟩
        ⟨frames', frame'.close inside'⟩ := by
  generalize hs : Nesting.mk (frame :: frames) inside = s at h
  cases h with
  | @here _ inside inside' hframes hinside =>
    cases hs
    -- the block around is closed
    obtain ⟨⟨hopener, hframe⟩, houter⟩ := List.forall_mem_cons.1 hframes
    obtain ⟨q, opener, before⟩ := frame
    obtain rfl : opener = .block .curly := hopener
    have hclosed : Around early late f last p₀ ([] ++ .block q .curly inside.reverse :: before)
        (moveAll f [] ++ .block q .curly inside'.reverse :: before) :=
      .block areAt_nil hframe.1 hinside.completed hframe.2
    rw [moveAll_nil] at hclosed
    exact ⟨_, _, _, rfl, rfl, .here houter hclosed⟩
  | @further inner frames q opener before before' inside hinner hq hbefore hframes hinside =>
    cases inner with
    | nil =>
      cases hs
      have hcontent : AreAt late [opener.close q inside.reverse] :=
        @areAt_close late ⟨q, opener, []⟩ ⟨hq, areAt_nil⟩ _ hinside
      have hclose := hbefore.cons hcontent
      rw [Opener.close_move, moveAll_reverse] at hclose
      exact ⟨_, _, _, rfl, rfl, .here hframes hclose⟩
    | cons frame' inner =>
      cases hs
      obtain ⟨hframe, hinner⟩ := List.forall_mem_cons.1 hinner
      have hclose : Related early late f last p₀
          ⟨inner ++ ⟨q, opener, before⟩ :: frames, frame.close inside⟩
          ⟨inner.map (Frame.move f) ++ ⟨f q, opener, before'⟩ :: frames,
            moveAll f (frame.close inside)⟩ :=
        .further hinner hq hbefore hframes (areAt_close hframe hinside)
      rw [← Frame.close_move] at hclose
      exact ⟨_, _, _, rfl, rfl, hclose⟩

theorem Related.around {inside : List Component} {s' : Nesting}
    (h : Related early late f last p₀ ⟨[], inside⟩ s') :
    ∃ inside', s' = ⟨[], inside'⟩ ∧ Around early late f last p₀ inside inside' := by
  generalize hs : Nesting.mk [] inside = s at h
  cases h with
  | here hframes hinside =>
    cases hs
    exact ⟨_, rfl, hinside⟩
  | further => simp at hs

/-- **What is open stays related**, whatever lexeme comes. -/
theorem Related.advance {s s' : Nesting} (h : Related early late f last p₀ s s')
    {p : Position} (hp : late p)
    (lexeme : Lexeme) :
    Related early late f last p₀ (s.advance p lexeme) (s'.advance (f p) lexeme) := by
  cases lexeme with
  | leaf l => exact h.leaf hp l
  | comment text => exact h
  | function name => exact h.opens hp _
  | opening bracket => exact h.opens hp _
  | closing bracket =>
    have hleaf := h.leaf hp (.unmatched bracket)
    obtain ⟨frames, inside⟩ := s
    cases frames with
    | nil =>
      obtain ⟨inside', rfl, -⟩ := h.around
      exact hleaf
    | cons frame frames =>
      obtain ⟨frame', frames', inside', rfl, hopener, hclose⟩ := h.closes
      rw [Nesting.advance, Nesting.advance, Nesting.shut, Nesting.shut]
      simp only [hopener]
      split
      · exact hclose
      · exact hleaf

theorem Related.run {s s' : Nesting} (h : Related early late f last p₀ s s')
    {list : List (Position × Lexeme)} (hlist : ∀ x ∈ list, late x.1) :
    Related early late f last p₀ (s.run list) (s'.run (list.map (Prod.map f id))) := by
  induction list generalizing s s' with
  | nil => exact h
  | cons x list ih =>
    obtain ⟨hx, hlist⟩ := List.forall_mem_cons.1 hlist
    exact ih (h.advance hx x.2) hlist

/-- Closing all that is open leaves components of which one block ends with the semicolon. -/
theorem Related.completed {s s' : Nesting} (h : Related early late f last p₀ s s') :
    Completed early late f last p₀ s.components s'.components := by
  obtain ⟨frames, inside⟩ := s
  induction frames generalizing inside s' with
  | nil =>
    obtain ⟨inside', rfl, haround⟩ := h.around
    exact haround.completed
  | cons frame frames ih =>
    obtain ⟨frame', frames', inside', rfl, -, hclose⟩ := h.closes
    have hcompleted := ih _ hclose
    exact hcompleted

end Related

/-! ## Reading one leaf more -/

/-- The components that are not ended after others. -/
def unended (pending components : List Component) : List Component :=
  components.foldl (fun pending c => (clausesEndedBy pending c).2) pending

/-- The clauses of the components behind others are among all clauses. -/
theorem clauses_append (pending components others : List Component) : ∃ before,
    clauses pending (components ++ others)
      = before ++ clauses (unended pending components) others := by
  induction components generalizing pending with
  | nil => exact ⟨[], rfl⟩
  | cons c cs ih =>
    obtain ⟨before, hbefore⟩ := ih (clausesEndedBy pending c).2
    exact ⟨_ ++ before, by rw [List.cons_append, clauses, hbefore, List.append_assoc]; rfl⟩

theorem Component.AreAt.unended {P : Position → Prop} {pending components : List Component}
    (h : AreAt P (pending ++ components)) : AreAt P (unended pending components) := by
  induction components generalizing pending with
  | nil => rwa [List.append_nil] at h
  | cons c cs ih =>
    rw [List.append_cons, areAt_append] at h
    exact ih (areAt_append.2 ⟨h.1.clausesEndedBy, h.2⟩)

section Reading

variable {source source' : Source} {early late : Position → Prop} {f : Position → Position}
  {last : List Component} {p₀ : Position}

/-- What stands before some components is read first, and in the other source as well. -/
theorem readContent_split (hmoves : source.Moves source' id early) {others : List Component} :
    ∀ {pending components : List Component} {nodes : List Node},
      AreAt early (pending ++ components) →
    readContent source pending (components ++ others) = .ok nodes →
    ∃ first more, nodes = first ++ more
      ∧ readContent source (unended pending components) others = .ok more
      ∧ ∀ others' more', readContent source' (unended pending components) others' = .ok more' →
        readContent source' pending (components ++ others') = .ok (first ++ more') := by
  intro pending components
  induction components generalizing pending with
  | nil => exact fun hat h => ⟨[], _, rfl, h, fun _ _ h' => h'⟩
  | cons c cs ih =>
    intro nodes hat h
    rw [List.append_cons, areAt_append] at hat
    obtain ⟨ended, left, behind, hc, hbehind, rfl⟩ := readContent_cons_eq_ok.1 h
    obtain rfl := (readComponent_clauses hc).2
    obtain ⟨first, more, rfl, hmore, hother⟩ :=
      ih (areAt_append.2 ⟨hat.1.clausesEndedBy, hat.2⟩) hbehind
    refine ⟨ended ++ first, more, (List.append_assoc ..).symm, hmore, fun others' more' h' => ?_⟩
    have hc' := readComponent_move hmoves hat.1
    rw [moveAll_id, move_id, hc, Except.map, moveAll_id] at hc'
    exact readContent_cons_eq_ok.2
      ⟨ended, _, first ++ more', hc', hother others' more' h', List.append_assoc ..⟩

end Reading

/-- Nodes of which the last one of a block, at any depth, is one directive or another one. -/
inductive Node.Exchanged (d d' : Directive) : List Node → List Node → Prop
  | last (before : List Node) :
    Exchanged d d' (before ++ [.directive d]) (before ++ [.directive d'])
  | block {children children' : List Node} (before : List Node) (prelude : Prelude)
    (h : Exchanged d d' children children') (after : List Node) :
    Exchanged d d' (before ++ prelude.toNode children :: after)
      (before ++ prelude.toNode children' :: after)

section Reading

variable {source source' : Source} {early late : Position → Prop} {f : Position → Position}
  {last : List Component} {p₀ : Position}

/-- **A semicolon only ends the last statement of its block.**  If this is a directive, the
nodes are the same up to its value. -/
theorem readContent_completed (hearly : source.Moves source' id early)
    (hlate : source.Moves source' f late)
    {statement : Component} {rest : List Component}
    (hstatement : Component.strip (unended [] last) = statement :: rest)
    (hkeyword : statement.isAtKeyword = true) {components components' : List Component}
    (h : Completed early late f last p₀ components components') :
    ∀ {nodes : List Node}, readContent source [] components = .ok nodes →
      ∃ nodes', readContent source' [] components' = .ok nodes' ∧ Node.Exchanged
        { value := source.directiveValue (statement :: rest) none,
          origin := source.originOf statement }
        { value := source'.directiveValue (statement :: rest) (some p₀)
          origin := source'.originOf statement } nodes nodes' := by
  induction h with
  | last hlast =>
    intro nodes hread
    rw [← List.append_nil last] at hread
    obtain ⟨first, more, rfl, hmore, hother⟩ := @readContent_split _ _ _ hearly _ [] _ _ hlast hread
    rw [readContent, readStatement_directive _ hstatement hkeyword] at hmore
    cases hmore
    have hdirective := readStatement_directive source' hstatement hkeyword (some p₀)
    exact ⟨_, hother [semicolon p₀] _ (readContent_semicolon_eq_ok.2 ⟨_, [], hdirective, rfl, rfl⟩),
      .last first⟩
  | @block before content content' after p hbefore hp hcontent hafter ih =>
    intro nodes hread
    obtain ⟨first, more, rfl, hmore, hother⟩ :=
      @readContent_split _ _ _ hearly _ [] _ _ hbefore hread
    obtain ⟨prelude, children, behind, hprelude, hchildren, hbehind, rfl⟩ :=
      readContent_curly_eq_ok.1 hmore
    obtain ⟨children', hchildren', hexchanged⟩ := ih hchildren
    -- what stands before the block stays, and what stands behind it only moves
    have hprelude' := readPrelude_move hearly (@AreAt.unended _ [] _ hbefore) hp
    rw [moveAll_id, id, hprelude] at hprelude'
    have hbehind' := @readContent_move _ _ _ _ hlate _ [] hafter
    rw [moveAll_nil, hbehind] at hbehind'
    exact ⟨_, hother _ (prelude.toNode children' :: behind) (readContent_curly_eq_ok.2
      ⟨prelude, children', behind, hprelude', hchildren', hbehind', rfl⟩),
      .block first prelude hexchanged behind⟩

/-- The statement is a clause of the components with the semicolon. -/
theorem mem_clauses_completed {statement : Component} {rest : List Component}
    (hstatement : Component.strip (unended [] last) = statement :: rest)
    {components components' : List Component}
    (h : Completed early late f last p₀ components components') :
    ⟨statement :: rest, .semicolon p₀⟩ ∈ clauses [] components' := by
  induction h with
  | last _ =>
    obtain ⟨before, heq⟩ := clauses_append [] last [semicolon p₀]
    rw [heq, clauses, semicolon, clausesEndedBy, if_pos rfl, clauseOf, hstatement]
    simp
  | @block before content content' after p _ _ _ _ ih =>
    obtain ⟨others, heq⟩ := clauses_append [] before (.block p .curly content' :: moveAll f after)
    rw [heq, clauses, clausesEndedBy, if_pos rfl]
    simp [ih]

end Reading

/-- Exchanging a directive for another one keeps declarations out. -/
theorem Node.Exchanged.refuseDeclarations {d d' : Directive} {nodes nodes' : List Node}
    (h : Exchanged d d' nodes nodes') : refuseDeclarations nodes' = refuseDeclarations nodes := by
  have hother : ∀ {node node' : Node} (before : List Node) {after : List Node},
      node.isDeclaration = false → node'.isDeclaration = false →
        NestedSheet.refuseDeclarations (before ++ node' :: after)
          = NestedSheet.refuseDeclarations (before ++ node :: after) := by
    intro node node' before after hnode hnode'
    induction before with
    | nil =>
      have hskip : ∀ {node : Node}, node.isDeclaration = false →
          NestedSheet.refuseDeclarations (node :: after)
            = NestedSheet.refuseDeclarations after := by
        intro node hnode
        cases node with
        | declaration d => cases hnode
        | _ => rfl
      rw [List.nil_append, List.nil_append, hskip hnode, hskip hnode']
    | cons first before ih =>
      cases first with
      | declaration d => rfl
      | _ => exact ih
  cases h with
  | last before => exact hother before rfl rfl
  | block before prelude h after =>
    cases prelude <;> exact hother before rfl rfl

/-! ## Two texts -/

namespace Position

/-- The position one column further, if it is on the line. -/
def shift (line : Nat) (p : Position) : Position :=
  if p.line = line then ⟨p.line, p.column + 1⟩ else p

theorem line_shift (line : Nat) (p : Position) : (p.shift line).line = p.line := by
  unfold shift
  split <;> rfl

/-- A text that starts on the line or behind it ends one column further if it starts there,
unless it ends on a later line. -/
theorem shift_after {line : Nat} {p : Position} (hp : line ≤ p.line) (t : Text) :
    (p.after t).shift line = (p.shift line).after t := by
  induction t generalizing p with
  | nil => rfl
  | cons c t ih =>
    have hnext : (p.next c).shift line = (p.shift line).next c ∧ line ≤ (p.next c).line := by
      unfold next
      rw [line_shift]
      by_cases hc : c = '\n'
      · rw [if_pos hc, if_pos hc, shift, if_neg (show p.line + 1 ≠ line by omega)]
        exact ⟨rfl, Nat.le_succ_of_le hp⟩
      · rw [if_neg hc, if_neg hc]
        unfold shift
        by_cases hline : p.line = line
        · rw [if_pos hline, if_pos hline]
          exact ⟨rfl, hp⟩
        · rw [if_neg hline, if_neg hline]
          exact ⟨rfl, hp⟩
    have hafter := ih hnext.2
    rwa [hnext.1] at hafter

theorem shift_behind (x z : Text) : (behind (x ++ '}' :: z)).shift (behind x).line
    = behind (x ++ ';' :: '}' :: z) := by
  rw [behind_append, behind_append]
  have hstart : ((behind x).next '}').shift (behind x).line = ((behind x).next ';').next '}' := by
    simp [next, shift]
  have hafter := @shift_after (behind x).line ((behind x).next '}') (by simp [next]) z
  rw [hstart] at hafter
  exact hafter

end Position

namespace Stretch

theorem located_shift {line : Nat} {p : Position} (hp : line ≤ p.line) (stretches : List Stretch) :
    located (p.shift line) stretches
      = (located p stretches).map (Prod.map (Position.shift line) id) := by
  induction stretches generalizing p with
  | nil => rfl
  | cons a stretches ih =>
    have hrest := ih (hp.trans (p.line_le_after a.text))
    rw [Position.shift_after hp] at hrest
    rw [located, hrest, located, List.map_cons]
    rfl

end Stretch

/-- Does the position stand in the text or right behind it? -/
def Position.IsIn (x : Text) (p : Position) : Prop :=
  ∃ z w, x = z ++ w ∧ p = Position.behind z

/-- Does the position stand behind the first text and in the second one? -/
def Position.IsBehind (x y : Text) (p : Position) : Prop :=
  ∃ z w, y = z ++ w ∧ p = Position.behind (x ++ z)

section Texts

variable {path : Option Text} {t t' x y : Text}
  (h : (Source.ofText path t).text = x ++ '}' :: y)
  (h' : (Source.ofText path t').text = x ++ ';' :: '}' :: y)

include h h'

theorem moves_in : (Source.ofText path t).Moves (Source.ofText path t') id (Position.IsIn x) where
  path := rfl
  line := fun _ _ => rfl
  slice := by
    rintro _ _ ⟨z, w, hz, rfl⟩ ⟨u, v, rfl, rfl⟩
    have htake : ∀ rest : Text, ((u ++ v) ++ rest).take u.length = u := fun rest => by
      rw [List.append_assoc, List.take_left]
    have hu : (Source.ofText path t).offset (Position.behind u) = u.length := 
      Source.offset_after (h.trans (List.append_assoc ..))
    have hu' : (Source.ofText path t').offset (Position.behind u) = u.length := 
      Source.offset_after (h'.trans (List.append_assoc ..))
    rw [hz] at h h'
    have hz₁ : (Source.ofText path t).offset (Position.behind z) = z.length := 
      Source.offset_after (h.trans (List.append_assoc ..))
    have hz₂ : (Source.ofText path t').offset (Position.behind z) = z.length := 
      Source.offset_after (h'.trans (List.append_assoc ..))
    rw [← hz] at h h'
    rw [id, id, Source.slice, Source.slice, hu, hu', hz₁, hz₂, h, h', htake, htake]

theorem moves_behind : (Source.ofText path t).Moves (Source.ofText path t')
    (Position.shift (Position.behind x).line) (Position.IsBehind (x ++ ['}']) y) where
  path := rfl
  line := fun p _ => p.line_shift _
  slice := by
    rintro _ _ ⟨z, w, hz, rfl⟩ ⟨u, v, hu, rfl⟩
    have hoffset : ∀ {z w : Text}, y = z ++ w →
        (Source.ofText path t).offset (Position.behind (x ++ ['}'] ++ z))
          = (x ++ ['}']).length + z.length
          ∧ (Source.ofText path t').offset
              ((Position.behind (x ++ ['}'] ++ z)).shift (Position.behind x).line)
            = (x ++ [';', '}']).length + z.length := by
      intro z w hz
      rw [← List.length_append, ← List.length_append, List.append_assoc, List.singleton_append,
        Position.shift_behind, List.append_assoc]
      refine ⟨@Source.offset_after _ _ _ w ?_, @Source.offset_after _ _ _ w ?_⟩
      · rw [h, hz]
        simp
      · rw [h', hz]
        simp
    have hsplit : x ++ '}' :: y = (x ++ ['}']) ++ y ∧ x ++ ';' :: '}' :: y
        = (x ++ [';', '}']) ++ y := by
      simp
    obtain ⟨hz₁, hz₂⟩ := hoffset hz
    obtain ⟨hu₁, hu₂⟩ := hoffset hu
    rw [Source.slice, Source.slice, hz₁, hz₂, hu₁, hu₂, h, h', hsplit.1, hsplit.2]
    simp only [List.take_length_add_append, List.drop_length_add_append]

end Texts

/-! ## The last statement of a block -/

/-- The components are the last statement of the block that the bracket between the texts
closes, which is that of a rule or a directive.  The stretches are those from the first of
them up to the bracket. -/
inductive LastStatement (before after : Text) (components : List Component)
    (stretches : List Stretch) : Prop
  | intro {lead trail : List Stretch} {frame : Frame} {frames : List Frame}
    {inside : List Component}
    (hstretches : Stretch.ofText (normalizeNewlines (before ++ '}' :: after))
      = lead ++ stretches ++ ⟨['}'], .closing .curly⟩ :: trail)
    (htext : Stretch.textOf (lead ++ stretches) = normalizeNewlines before)
    (hfirst : ∀ first ∈ components.head?, first.position = Position.behind (Stretch.textOf lead))
    (hopen : Nesting.run {} (Stretch.located {} (lead ++ stretches)) = ⟨frame :: frames, inside⟩)
    (hblocks : ∀ outer ∈ frame :: frames, outer.opener = .block .curly)
    (hstatement : Component.strip (unended [] inside.reverse) = components)

theorem text_bracket (path : Option Text) (before after : Text) :
    (Source.ofText path (before ++ '}' :: after)).text
      = normalizeNewlines before ++ '}' :: normalizeNewlines after := by
  show normalizeNewlines _ = _
  rw [normalizeNewlines_append (Or.inr (by simp)), normalizeNewlines_cons (by simp)]
  rfl

theorem text_semicolon (path : Option Text) (before after : Text) :
    (Source.ofText path (before ++ ';' :: '}' :: after)).text
      = normalizeNewlines before ++ ';' :: '}' :: normalizeNewlines after := by
  show normalizeNewlines _ = _
  rw [normalizeNewlines_append (Or.inr (by simp)), normalizeNewlines_cons (by simp),
    normalizeNewlines_cons (by simp)]
  rfl

/-- The components of a text, from what is open behind its first stretches. -/
theorem Component.ofText_of_run {t : Text} {lead more : List Stretch} {s : Nesting}
    (h : Stretch.ofText t = lead ++ more)
    (hopen : Nesting.run {} (Stretch.located {} lead) = s) :
    Component.ofText t
      = (s.run (Stretch.located (Position.behind (Stretch.textOf lead)) more)).components := by
  rw [Component.ofText, Stretch.scan_eq_located, h, Stretch.located_append,
    Nesting.nest_eq_run, Nesting.run_append, hopen, Position.behind]

/-- What is open behind some stretches starts among them. -/
theorem Nesting.isAt_located (lead : List Stretch) :
    (Nesting.run {} (Stretch.located {} lead)).IsAt (Position.IsIn (Stretch.textOf lead)) := by
  refine Nesting.IsAt.run ⟨List.forall_mem_nil _, areAt_nil⟩ fun x hx => ?_
  obtain ⟨pre, a, post, rfl, rfl⟩ := Stretch.exists_of_mem_located hx
  exact ⟨_, _, Stretch.textOf_append pre (a :: post), rfl⟩

theorem Position.isBehind_located (t : Text) (trail : List Stretch) :
    ∀ x ∈ Stretch.located (Position.behind t) trail,
      Position.IsBehind t (Stretch.textOf trail) x.1 := by
  intro x hx
  obtain ⟨pre, a, post, rfl, rfl⟩ := Stretch.exists_of_mem_located hx
  exact ⟨_, _, Stretch.textOf_append pre (a :: post), (Position.behind_append t _).symm⟩

section LastStatement

variable {before after : Text} {components : List Component} {stretches : List Stretch}
  (h : LastStatement before after components stretches) (path : Option Text)

include h

/-- With the semicolon the components have one leaf more, at the end of the block. -/
theorem LastStatement.completed : ∃ last, Component.strip (unended [] last) = components
    ∧ Completed (Position.IsIn (normalizeNewlines before))
      (Position.IsBehind (normalizeNewlines before ++ ['}']) (normalizeNewlines after))
      (Position.shift (Position.behind (normalizeNewlines before)).line) last
      (Position.behind (normalizeNewlines before))
      (Component.ofText (Source.ofText path (before ++ '}' :: after)).text)
      (Component.ofText (Source.ofText path (before ++ ';' :: '}' :: after)).text) := by
  obtain @⟨lead, trail, frame, frames, inside, hstretches, htext, -, hopen, hblocks,
    hstatement⟩ := h
  refine ⟨inside.reverse, hstatement, ?_⟩
  have hbracket : Stretch.ofText (normalizeNewlines before ++ '}' :: normalizeNewlines after)
      = lead ++ stretches ++ ⟨['}'], .closing .curly⟩ :: trail :=
    text_bracket path before after ▸ hstretches
  have hsemicolon := Stretch.ofText_exchange hbracket htext
  have htrail : normalizeNewlines after = Stretch.textOf trail := by
    have hall := Stretch.textOf_ofText (normalizeNewlines before ++ '}' :: normalizeNewlines after)
    rw [hbracket, Stretch.textOf_append, htext] at hall
    exact (List.cons.inj (List.append_cancel_left hall)).2.symm
  -- up to the bracket both texts are the same
  have hstate := Nesting.isAt_located (lead ++ stretches)
  rw [hopen, htext] at hstate
  obtain ⟨hframe, hframes⟩ := List.forall_mem_cons.1 hstate.frames
  obtain ⟨hblock, hcurly⟩ := List.forall_mem_cons.1 hblocks
  obtain ⟨p, opener, outside⟩ := frame
  obtain rfl : opener = .block .curly := hblock
  -- behind it they stay related
  have haround := @Around.block (Position.IsIn (normalizeNewlines before))
    (Position.IsBehind (normalizeNewlines before ++ ['}']) (normalizeNewlines after))
    (Position.shift (Position.behind (normalizeNewlines before)).line) inside.reverse
    (Position.behind (normalizeNewlines before)) [] _ _ _ _ areAt_nil hframe.1
    (.last (areAt_reverse.2 hstate.inside)) hframe.2
  have hrelated := Related.here
    (fun outer houter => ⟨hcurly outer houter, hframes outer houter⟩) haround
  have hbehind := Position.isBehind_located (normalizeNewlines before ++ ['}']) trail
  rw [← htrail] at hbehind
  have hcompleted := (hrelated.run hbehind).completed
  have hline : (Position.behind (normalizeNewlines before)).line
      ≤ (Position.behind (normalizeNewlines before ++ ['}'])).line := by
    rw [Position.behind_append]
    exact Position.line_le_after _ _
  rw [← Stretch.located_shift hline, Position.shift_behind] at hcompleted
  have hcomponents := Component.ofText_of_run hbracket hopen
  have hcomponents' := Component.ofText_of_run hsemicolon hopen
  rw [htext, Stretch.located, ← Position.behind_append] at hcomponents
  rw [htext, Stretch.located, Stretch.located, ← Position.behind_append, ← Position.behind_append,
    List.append_assoc] at hcomponents'
  rw [text_bracket, text_semicolon, hcomponents, hcomponents']
  rw [← List.reverse_cons] at hcompleted
  exact hcompleted

end LastStatement

section LastStatement

variable {before after : Text} {first : Component} {rest : List Component}
  {stretches : List Stretch}
  (h : LastStatement before after (first :: rest) stretches) (path : Option Text)

include h

/-- The semicolon ends the statement. -/
theorem LastStatement.mem_clauses :
    ⟨first :: rest, .semicolon (Position.behind (normalizeNewlines before))⟩
      ∈ clauses [] (Component.ofText
        (Source.ofText path (before ++ ';' :: '}' :: after)).text) := by
  obtain ⟨last, hstatement, hcompleted⟩ := h.completed path
  exact mem_clauses_completed hstatement hcompleted

/-- The semicolon is no integer, and the others stay what they are. -/
theorem LastStatement.firstExcess? :
    Lexeme.firstExcess? (Lexeme.scan {} (Source.ofText path (before ++ ';' :: '}' :: after)).text)
      = Lexeme.firstExcess? (Lexeme.scan {} (Source.ofText path (before ++ '}' :: after)).text) := by
  obtain @⟨lead, trail, -, -, -, hstretches, htext, -, -, -, -⟩ := h
  have hbracket : Stretch.ofText (normalizeNewlines before ++ '}' :: normalizeNewlines after)
      = lead ++ stretches ++ ⟨['}'], .closing .curly⟩ :: trail :=
    text_bracket path before after ▸ hstretches
  rw [text_bracket, text_semicolon, Stretch.firstExcess?_scan, Stretch.firstExcess?_scan,
    Stretch.ofText_exchange hbracket htext, hbracket]
  simp only [List.map_append, List.map_cons, List.findSome?_append, List.findSome?_cons]
  rfl

/-- **The semicolon changes nothing but the value of the directive.** -/
theorem LastStatement.read (hkeyword : first.isAtKeyword = true) {sheet : Sheet}
    (hread : Sheet.read path (before ++ '}' :: after) = .ok sheet) :
    ∃ sheet', Sheet.read path (before ++ ';' :: '}' :: after) = .ok sheet'
      ∧ sheet'.path = sheet.path
      ∧ Node.Exchanged
        { value := (Source.ofText path (before ++ '}' :: after)).directiveValue (first :: rest) none
          origin := ⟨some first.position.line, path⟩ }
        { value := (Source.ofText path (before ++ ';' :: '}' :: after)).directiveValue
            (first :: rest) (some (Position.behind (normalizeNewlines before)))
          origin := ⟨some first.position.line, path⟩ } sheet.children sheet'.children := by
  obtain ⟨last, hstatement, hcompleted⟩ := h.completed path
  obtain ⟨_, nodes, hparse, hnodes, hrefused, rfl⟩ := Sheet.read_eq_ok.1 hread
  obtain ⟨hshort, rfl⟩ := Component.parse_eq_ok.1 hparse
  have hparse' := Component.parse_eq_ok.2 ⟨(h.firstExcess? path).trans hshort, rfl⟩
  have hbracket := text_bracket path before after
  have hsemicolon := text_semicolon path before after
  obtain ⟨nodes', hnodes', hexchanged⟩ := readContent_completed (moves_in hbracket hsemicolon)
    (moves_behind hbracket hsemicolon) hstatement hkeyword hcompleted hnodes
  rw [← hexchanged.refuseDeclarations] at hrefused
  exact ⟨_, Sheet.read_eq_ok.2 ⟨_, nodes', hparse', hnodes', hrefused, rfl⟩, rfl, hexchanged⟩

end LastStatement

end NestedSheet
