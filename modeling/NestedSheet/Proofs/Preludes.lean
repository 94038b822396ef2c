import NestedSheet.Proofs.Clauses
import NestedSheet.Proofs.Nesting
import NestedSheet.Proofs.Positions
import NestedSheet.Proofs.Respacing

/-!
# What preludes say

A rule or a directive stores the text before its block or its semicolon, cut out of the
source by positions and cleared of comments and line breaks as a text.  Does the stored
text still say what the components before the block say?  `inkOf` is what they say:
kinds and values at every level, without positions and whitespace.

The components of a clause are stretches of the source, from the first of them up to the
mark that ends the clause (`exists_stretches`).  Removing comments and line breaks keeps
what these stretches say where it keeps each of them as it is and joins no two of them
(`Stretch.areRobust`); then the stored text says what the clause says (`inkOf_heading`).
Where it does not, it may not (`inkOf_heading_lost`).
-/

namespace NestedSheet

open Component

/-! ## The lexemes of a clause -/

/-- The lexeme that ends a clause. -/
def Clause.Ending.mark? : Clause.Ending → Option (Position × Lexeme)
  | block p => some (p, .opening .curly)
  | semicolon p => some (p, .leaf (.literal [';']))
  | nothing => none

/-- Are the lexemes whitespace only? -/
def AreSpaces (list : List (Position × Lexeme)) : Prop :=
  ∀ x ∈ list, ∃ text, x.2 = .leaf (.whitespace text)

/-- A list of components and what is trimmed from it. -/
theorem exists_strip (components : List Component) : ∃ lead trail,
    components = lead ++ (strip components ++ trail) ∧ (∀ c ∈ lead, c.isWhitespace = true)
      ∧ (∀ c ∈ trail, c.isWhitespace = true) ∧ ∀ first ∈ (strip components).head?, first.isWhitespace = false := by
  have hend : strip components
      ++ ((components.dropWhile isWhitespace).reverse.takeWhile isWhitespace).reverse
      = components.dropWhile isWhitespace := by
    rw [strip, ← List.reverse_append, List.takeWhile_append_dropWhile, List.reverse_reverse]
  refine ⟨components.takeWhile isWhitespace,
    ((components.dropWhile isWhitespace).reverse.takeWhile isWhitespace).reverse, ?_, ?_, ?_, ?_⟩
  · rw [hend, List.takeWhile_append_dropWhile]
  · exact fun c hc => List.mem_takeWhile_imp hc
  · intro c hc
    exact List.mem_takeWhile_imp (List.mem_reverse.1 hc)
  · intro first hfirst
    obtain ⟨rest, hrest⟩ := List.head?_eq_some_iff.1 hfirst
    have hnot := List.head?_dropWhile_not isWhitespace components
    rw [← hend, hrest] at hnot
    simpa using hnot

theorem areSpaces_lexemesOf {components : List Component}
    (h : ∀ c ∈ components, c.isWhitespace = true) : AreSpaces (lexemesOf components) := by
  induction components with
  | nil => exact nofun
  | cons c cs ih =>
    obtain ⟨hc, hcs⟩ := List.forall_mem_cons.1 h
    intro x hx
    rw [lexemesOf] at hx
    rcases List.mem_append.1 hx with hx | hx
    · unfold isWhitespace at hc
      split at hc
      · obtain rfl := List.mem_singleton.1 hx
        exact ⟨_, rfl⟩
      · cases hc
    · exact ih hcs x hx

theorem lexemesOf_clauseOf {components : List Component} {ending : Clause.Ending} {clause : Clause}
    (h : clause ∈ clauseOf components ending) : clause.ending = ending
      ∧ (∀ first ∈ clause.components.head?, first.isWhitespace = false)
      ∧ ∃ before spaces, AreSpaces spaces
        ∧ lexemesOf components = before ++ (lexemesOf clause.components ++ spaces) := by
  obtain ⟨lead, trail, hsplit, -, htrail, hhead⟩ := exists_strip components
  unfold clauseOf at h
  split at h
  · cases h
  · next first rest hstrip =>
    obtain rfl := List.mem_singleton.1 h
    rw [hstrip] at hhead
    refine ⟨rfl, hhead, lexemesOf lead, lexemesOf trail, areSpaces_lexemesOf htrail, ?_⟩
    rw [← lexemesOf_append, ← lexemesOf_append, ← hstrip, ← hsplit]

/-- The components that are pending behind a component are at the end of those before. -/
theorem lexemesOf_pending (pending : List Component) (c : Component) :
    ∃ before, lexemesOf (pending ++ [c]) = before ++ lexemesOf (clausesEndedBy pending c).2 := by
  cases c with
  | leaf p l =>
    rw [clausesEndedBy]
    split
    · exact ⟨_, (List.append_nil _).symm⟩
    · exact ⟨[], rfl⟩
  | function p name arguments =>
    rw [clausesEndedBy]
    exact ⟨[], rfl⟩
  | block p bracket content =>
    rw [clausesEndedBy]
    split
    · exact ⟨_, (List.append_nil _).symm⟩
    · exact ⟨[], rfl⟩

/-- The lexemes of a clause stand one behind the other, with no whitespace before them and
perhaps some before the mark that ends them, if there is one. -/
def Clause.StandsIn (clause : Clause) (list : List (Position × Lexeme)) : Prop :=
  (∀ first ∈ clause.components.head?, first.isWhitespace = false) ∧ ∃ before spaces after, AreSpaces spaces
    ∧ list = before ++ (lexemesOf clause.components ++ (spaces ++ (clause.ending.mark?.toList ++ after)))

theorem Clause.StandsIn.append {clause : Clause} {list : List (Position × Lexeme)}
    (h : clause.StandsIn list) (before after : List (Position × Lexeme)) :
    clause.StandsIn (before ++ (list ++ after)) := by
  obtain ⟨hhead, start, spaces, rest, hspaces, rfl⟩ := h
  exact ⟨hhead, before ++ start, spaces, rest ++ after, hspaces, by simp⟩

theorem standsIn_clauseOf {components : List Component} {ending : Clause.Ending} {clause : Clause}
    (h : clause ∈ clauseOf components ending) (after : List (Position × Lexeme)) :
    clause.StandsIn (lexemesOf components ++ (ending.mark?.toList ++ after)) := by
  obtain ⟨rfl, hhead, before, spaces, hspaces, heq⟩ := lexemesOf_clauseOf h
  exact ⟨hhead, before, spaces, after, hspaces, by rw [heq, List.append_assoc, List.append_assoc]⟩

mutual

/-- The lexemes of a clause are among those of the content that it is a clause of. -/
theorem standsIn_clauses : ∀ {clause : Clause} {pending components : List Component},
    clause ∈ clauses pending components → clause.StandsIn (lexemesOf (pending ++ components))
  | clause, pending, [], h => by
    rw [clauses] at h
    have hstands := standsIn_clauseOf h []
    rwa [Clause.Ending.mark?, Option.toList_none, List.append_nil, List.append_nil,
      ← List.append_nil pending] at hstands
  | clause, pending, c :: cs, h => by
    rw [clauses] at h
    rw [List.append_cons, lexemesOf_append]
    rcases List.mem_append.1 h with h | h
    · exact (standsIn_clausesEndedBy h).append [] (lexemesOf cs)
    · obtain ⟨before, hbefore⟩ := lexemesOf_pending pending c
      have hstands := (standsIn_clauses h).append before []
      rwa [List.append_nil, lexemesOf_append, ← List.append_assoc, ← hbefore] at hstands

theorem standsIn_clausesEndedBy : ∀ {clause : Clause} {pending : List Component} {c : Component},
    clause ∈ (clausesEndedBy pending c).1 → clause.StandsIn (lexemesOf (pending ++ [c]))
  | clause, pending, .leaf p l, h => by
    rw [clausesEndedBy] at h
    split at h
    · next hl =>
      subst hl
      rw [lexemesOf_append]
      exact standsIn_clauseOf h []
    · cases h
  | clause, pending, .function p name arguments, h => by
    rw [clausesEndedBy] at h
    cases h
  | clause, pending, .block p bracket content, h => by
    rw [clausesEndedBy] at h
    split at h
    · next hcurly =>
      subst hcurly
      rw [lexemesOf_append, lexemesOf_singleton, lexemes]
      rcases List.mem_append.1 h with h | h
      · exact standsIn_clauseOf h (lexemesOf content ++ [closer .curly])
      · have hstands := (standsIn_clauses h).append (lexemesOf pending ++ [(p, .opening .curly)])
          [closer .curly]
        simpa using hstands
    · cases h

end

/-! ## The stretches of a clause -/

/-- The stretches that the first characters of a text are made of. -/
def Stretch.within (n : Nat) : List Stretch → List Stretch
  | [] => []
  | a :: stretches => if n = 0 then [] else a :: within (n - a.text.length) stretches

theorem Stretch.within_append {stretches : List Stretch} (h : ∀ a ∈ stretches, a.text ≠ [])
    (others : List Stretch) : within (textOf stretches).length (stretches ++ others) = stretches := by
  induction stretches with
  | nil => cases others <;> rfl
  | cons a stretches ih =>
    obtain ⟨ha, hrest⟩ := List.forall_mem_cons.1 h
    have hpos := List.length_pos_iff.2 ha
    rw [List.cons_append, within, textOf_cons, List.length_append, if_neg (by omega),
      Nat.add_sub_cancel_left, ih hrest]

/-- The stretches of a source between two positions. -/
def Source.stretches (source : Source) (start stop : Position) : List Stretch :=
  Stretch.within (source.offset stop - source.offset start)
    (Stretch.ofText (source.text.drop (source.offset start)))

theorem Source.stretches_eq {path : Option Text} {t : Text} {before stretches after : List Stretch}
    (h : Stretch.ofText (ofText path t).text = before ++ (stretches ++ after)) :
    (ofText path t).stretches (Position.behind (Stretch.textOf before))
      (Position.behind (Stretch.textOf before ++ Stretch.textOf stretches)) = stretches := by
  have htext : (ofText path t).text
      = Stretch.textOf before ++ (Stretch.textOf stretches ++ Stretch.textOf after) := by
    rw [← Stretch.textOf_ofText (ofText path t).text, h, Stretch.textOf_append, Stretch.textOf_append]
  have hne : ∀ a ∈ stretches, a.text ≠ [] := by
    intro a ha
    apply Stretch.text_ne_nil (t := (ofText path t).text)
    rw [h]
    simp [ha]
  rw [Source.stretches, offset_after htext, offset_after (htext.trans (List.append_assoc ..).symm),
    List.length_append, Nat.add_sub_cancel_left, htext, List.drop_left, ← Stretch.textOf_append,
    Stretch.ofText_end h, Stretch.within_append hne]

/-- What stands in a list with closing brackets behind it and is none of these stands in
the list itself. -/
theorem exists_of_append_closing {list missing before after : List (Position × Lexeme)}
    {mark : Position × Lexeme} (h : list ++ missing = before ++ mark :: after)
    (hmissing : AreClosing missing) (hmark : ∀ bracket, mark.2 ≠ .closing bracket) :
    ∃ rest, list = before ++ mark :: rest := by
  rcases List.append_eq_append_iff.1 h with ⟨more, hbefore, hmore⟩ | ⟨more, hlist, hmore⟩
  · obtain ⟨bracket, hbracket⟩ := hmissing mark (by rw [hmore]; simp)
    exact absurd hbracket (hmark bracket)
  · cases more with
    | nil =>
      rw [List.nil_append] at hmore
      obtain ⟨bracket, hbracket⟩ := hmissing mark (by rw [← hmore]; simp)
      exact absurd hbracket (hmark bracket)
    | cons x more =>
      obtain ⟨rfl, -⟩ := List.cons.inj hmore
      exact ⟨more, hlist⟩

/-- A lexeme other than a closing bracket keeps its position. -/
theorem position_of_kept? {p : Position} {lexeme : Lexeme} {x : Position × Lexeme}
    (h : kept? (p, lexeme) = some x) (hx : ∀ bracket, x.2 ≠ .closing bracket) : x.1 = p := by
  cases lexeme with
  | leaf l =>
    cases l with
    | unmatched bracket =>
      cases h
      exact absurd rfl (hx bracket)
    | _ =>
      cases h
      rfl
  | comment text => cases h
  | closing bracket =>
    cases h
    exact absurd rfl (hx bracket)
  | _ =>
    cases h
    rfl

theorem isComment_of_kept? {p : Position} {a : Stretch} {x : Position × Lexeme}
    (h : kept? (p, a.lexeme) = some x) : a.isComment = false := by
  unfold Stretch.isComment
  split
  · next hlexeme =>
    rw [hlexeme] at h
    cases h
  · rfl

/-- The first lexeme of a component that is not whitespace is no whitespace. -/
theorem isSpace_of_kept? {p : Position} {a : Stretch} {c : Component}
    (h : kept? (p, a.lexeme) = (lexemes c).head?) (hc : c.isWhitespace = false) :
    a.isSpace = false := by
  unfold Stretch.isSpace
  split
  · next text hlexeme =>
    rw [hlexeme] at h
    cases c with
    | leaf q l =>
      cases l with
      | whitespace _ => cases hc
      | _ => simp [kept?, leafLexeme, lexemes, closer] at h
    | _ => simp [kept?, leafLexeme, lexemes] at h
  · rfl

/-- The first lexeme of a component stands where the component does. -/
theorem exists_first_lexeme {c : Component} (h : c.isFaultless = true) : ∃ x xs,
    lexemes c = x :: xs ∧ x.1 = c.position ∧ ∀ bracket, x.2 ≠ .closing bracket := by
  cases c with
  | leaf p l =>
    rw [isFaultless, Option.isNone_iff_eq_none] at h
    exact ⟨(p, .leaf l), [], by rw [lexemes, leafLexeme_faultless h], rfl, nofun⟩
  | function p name arguments => exact ⟨(p, .function name), _, by rw [lexemes], rfl, nofun⟩
  | block p bracket content => exact ⟨(p, .opening bracket), _, by rw [lexemes], rfl, nofun⟩

theorem Clause.Ending.mark?_ne_closing {ending : Clause.Ending} {mark : Position × Lexeme}
    (h : ending.mark? = some mark) (bracket : Bracket) : mark.2 ≠ .closing bracket := by
  cases ending <;> cases h <;> nofun

/-- **A clause that something ends is made of stretches of its text**, up to the mark that
ends it. -/
theorem exists_stretches {t : Text} {clause : Clause} {mark : Position × Lexeme}
    (hclause : clause ∈ clauses [] (Component.ofText t)) (hmark : clause.ending.mark? = some mark)
    {first : Component} {rest : List Component} (hfirst : clause.components = first :: rest)
    (hfault : first.isFaultless = true) :
    ∃ before stretches after spaces, Stretch.ofText t = before ++ (stretches ++ after)
      ∧ after ≠ [] ∧ first.position = Position.behind (Stretch.textOf before)
      ∧ mark.1 = Position.behind (Stretch.textOf before ++ Stretch.textOf stretches)
      ∧ AreSpaces spaces
      ∧ (Stretch.located first.position stretches).filterMap kept?
        = lexemesOf clause.components ++ spaces
      ∧ ∃ a more, stretches = a :: more ∧ a.isComment = false ∧ a.isSpace = false := by
  obtain ⟨x, xs, hx, hposition, hnot⟩ := exists_first_lexeme hfault
  obtain ⟨hhead, pre, spaces, post, hspaces, hstands⟩ := standsIn_clauses hclause
  rw [hmark, Option.toList_some, List.singleton_append] at hstands
  obtain ⟨missing, hmissing, hlexemes⟩ := lexemesOf_ofText t
  rw [List.nil_append, hlexemes, ← List.append_assoc, ← List.append_assoc] at hstands
  obtain ⟨others, hkept⟩ := exists_of_append_closing hstands hmissing (Clause.Ending.mark?_ne_closing hmark)
  -- the lexemes of the text that these are what is kept of
  obtain ⟨list, behind, hlist, hinside, hbehind⟩ := List.filterMap_eq_append_iff.1 hkept
  obtain ⟨comments, m, last, rfl, hcomments, hm, -⟩ := List.filterMap_eq_cons_iff.1 hbehind
  rw [List.append_assoc] at hinside
  obtain ⟨lead, middle, rfl, -, hmiddle⟩ := List.filterMap_eq_append_iff.1 hinside
  have hcons : middle.filterMap kept? = x :: (xs ++ lexemesOf rest ++ spaces) := by
    rw [hmiddle, hfirst, lexemesOf, hx]
    simp
  obtain ⟨skipped, y, more, rfl, -, hy, hmore⟩ := List.filterMap_eq_cons_iff.1 hcons
  -- and the stretches that these lexemes are
  have hsplit : Stretch.located {} (Stretch.ofText t)
      = (lead ++ skipped) ++ ((y :: more ++ comments) ++ m :: last) := by
    rw [hlist]
    simp
  obtain ⟨before, stretches, hbefore, -, hstretches⟩ := Stretch.located_eq_append hsplit
  obtain ⟨stretches, after, rfl, hlocated, hafter⟩ := Stretch.located_eq_append hstretches
  cases stretches with
  | nil => cases hlocated
  | cons a stretches =>
  cases after with
  | nil => cases hafter
  | cons b after =>
  obtain rfl : (Position.behind (Stretch.textOf before), a.lexeme) = y := (List.cons.inj hlocated).1
  obtain rfl := (List.cons.inj hafter).1
  have hstart : first.position = Position.behind (Stretch.textOf before) :=
    hposition.symm.trans (position_of_kept? hy hnot)
  refine ⟨before, a :: stretches, b :: after, spaces, hbefore, nofun, hstart, ?_, hspaces, ?_,
    a, stretches, rfl, isComment_of_kept? hy, ?_⟩
  · rw [Position.behind_append]
    exact position_of_kept? hm (Clause.Ending.mark?_ne_closing hmark)
  · have hnone : comments.filterMap kept? = [] := List.filterMap_eq_nil_iff.2 hcomments
    rw [hstart, Position.behind, hlocated, List.filterMap_append, hnone, List.append_nil,
      List.filterMap_cons_some hy, hmore, hfirst, lexemesOf, hx]
    simp
  · have hnospace := hhead first (by rw [hfirst]; rfl)
    exact isSpace_of_kept? (hy.trans (by rw [hx]; rfl)) hnospace

/-! ## What preludes say -/

/-- Is the leaf anything but whitespace? -/
def Leaf.isInk : Leaf → Bool
  | .whitespace _ => false
  | _ => true

/-- What components say: their kinds and values at every level, without positions and
whitespace. -/
def Component.inkOf (components : List Component) : List Component :=
  onlyOf Leaf.isInk components

/-- The text that is stored of what stands before a block or a semicolon. -/
def Node.heading? : Node → Option Text
  | .rule r _ => some ([' '].intercalate r.lines)
  | .block d _ => some d.value
  | .directive d => some d.value
  | _ => none

/-- The stretches of a source that components are made of, up to the position where they
end. -/
def Source.stretchesOf (source : Source) (components : List Component) (stop : Position) :
    List Stretch :=
  match components with
  | [] => []
  | first :: _ => source.stretches first.position stop

/-- Changing the whitespace between stretches does not change what they say. -/
theorem onlyLexeme_respace (stretches : List Stretch) : ∀ gap,
    (Stretch.respace gap stretches).flatMap (fun a => onlyLexeme Leaf.isInk a.lexeme)
      = stretches.flatMap fun a => onlyLexeme Leaf.isInk a.lexeme := by
  induction stretches with
  | nil => exact fun _ => rfl
  | cons a stretches ih =>
    intro gap
    rw [Stretch.respace]
    split
    · next hspace =>
      have ha : onlyLexeme Leaf.isInk a.lexeme = [] := by
        unfold Stretch.isSpace at hspace
        split at hspace
        · next hlexeme => rw [hlexeme]; rfl
        · cases hspace
      rw [ih, List.flatMap_cons, ha, List.nil_append]
    split
    · rw [List.flatMap_cons, List.flatMap_cons, ih]
    · rw [List.flatMap_cons, List.flatMap_cons, List.flatMap_cons, ih]
      rfl

/-- Comments say nothing. -/
theorem onlyLexeme_filter (stretches : List Stretch) :
    (stretches.filter fun a => !a.isComment).flatMap (fun a => onlyLexeme Leaf.isInk a.lexeme)
      = stretches.flatMap fun a => onlyLexeme Leaf.isInk a.lexeme := by
  induction stretches with
  | nil => rfl
  | cons a stretches ih =>
    rw [List.flatMap_cons, List.filter_cons, ← ih]
    split
    · rfl
    · next hcomment =>
      have ha : onlyLexeme Leaf.isInk a.lexeme = [] := by
        simp only [Stretch.isComment] at hcomment
        split at hcomment
        · next hlexeme => rw [hlexeme]; rfl
        · simp at hcomment
      rw [ha, List.nil_append]

theorem onlyLexeme_respaced (stretches : List Stretch) :
    (Stretch.respaced stretches).flatMap (fun a => onlyLexeme Leaf.isInk a.lexeme)
      = stretches.flatMap fun a => onlyLexeme Leaf.isInk a.lexeme := by
  rw [Stretch.respaced, onlyLexeme_respace, onlyLexeme_filter]

/-- What is kept of stretches are their lexemes, comments apart. -/
theorem Stretch.map_snd_kept {stretches : List Stretch} (h : ∀ a ∈ stretches, a.Reads) (p : Position) :
    ((Stretch.located p stretches).filterMap kept?).map Prod.snd
      = (stretches.filter fun a => !a.isComment).map Stretch.lexeme := by
  induction stretches generalizing p with
  | nil => rfl
  | cons a stretches ih =>
    obtain ⟨ha, hrest⟩ := List.forall_mem_cons.1 h
    have hmore := ih hrest (p.after a.text)
    obtain ⟨text, lexeme⟩ := a
    cases lexeme with
    | leaf l =>
      cases l with
      | unmatched bracket =>
        obtain ⟨c, u, -, hnext⟩ := ha [] rfl
        exact absurd hnext Lexeme.next_ne_unmatched
      | _ => exact congrArg (_ :: ·) hmore
    | comment inside => exact hmore
    | _ => exact congrArg (_ :: ·) hmore

/-- What is kept of stretches says what they say. -/
theorem onlyLexemes_kept {stretches : List Stretch} (h : ∀ a ∈ stretches, a.Reads) (p : Position) :
    onlyLexemes Leaf.isInk ((Stretch.located p stretches).filterMap kept?)
      = stretches.flatMap fun a => onlyLexeme Leaf.isInk a.lexeme := by
  have hkept := congrArg (List.flatMap (onlyLexeme Leaf.isInk)) (Stretch.map_snd_kept h p)
  rw [List.flatMap_map, List.flatMap_map, onlyLexeme_filter] at hkept
  exact hkept

theorem onlyLexemes_spaces {list spaces : List (Position × Lexeme)} (h : AreSpaces spaces) :
    onlyLexemes Leaf.isInk (list ++ spaces) = onlyLexemes Leaf.isInk list := by
  have hnone : onlyLexemes Leaf.isInk spaces = [] := by
    rw [onlyLexemes, List.flatMap_eq_nil_iff]
    intro x hx
    obtain ⟨text, hx⟩ := h x hx
    rw [hx]
    rfl
  rw [onlyLexemes, List.flatMap_append]
  exact (congrArg (onlyLexemes Leaf.isInk list ++ ·) hnone).trans (List.append_nil _)

/-- What is stored of a clause that is read as a rule or a directive. -/
theorem Clause.ReadAs.heading {source : Source} {clause : Clause} {node : Node}
    (h : clause.ReadAs source node) {text : Text} (htext : node.heading? = some text)
    {stop : Position} (hstop : clause.ending.stop? = some stop) :
    ∃ first rest, clause.components = first :: rest
      ∧ text = [' '].intercalate (Text.strippedLines
        (Text.strip (removeComments (source.slice first.position stop)))) := by
  cases h with
  | @rule first rest p children hfirst hlines =>
    cases htext
    cases hstop
    exact ⟨first, rest, rfl, intercalate_selectorLines _⟩
  | @block first rest p children hfirst =>
    cases htext
    cases hstop
    exact ⟨first, rest, rfl, rfl⟩
  | @directive first rest ending hfirst =>
    cases htext
    refine ⟨first, rest, rfl, ?_⟩
    rw [show ending.stop? = some stop from hstop]
    rfl
  | declaration _ => cases htext

theorem Clause.Ending.exists_mark {ending : Clause.Ending} {stop : Position}
    (h : ending.stop? = some stop) : ∃ mark, ending.mark? = some mark ∧ mark.1 = stop := by
  cases ending <;> cases h <;> exact ⟨_, rfl, rfl⟩

/-- **Preludes keep what they say.**  Every rule and every directive that a block or a
semicolon ends stores a text that says what its components say, if these have no fault
and the stretches that they are made of can be cleared of comments and line breaks. -/
theorem inkOf_heading {path : Option Text} {t : Text} {sheet : Sheet}
    (h : Sheet.read path t = .ok sheet) :
    List.Forall₂ (fun clause node => ∀ stop text, clause.ending.stop? = some stop →
        node.heading? = some text → areFaultless clause.components = true →
        Stretch.areRobust ((Source.ofText path t).stretchesOf clause.components stop) = true →
          inkOf (Component.ofText (normalizeNewlines text)) = inkOf clause.components)
      (clauses [] (Component.ofText (Source.ofText path t).text)) (Node.inOrderOf sheet.children) := by
  have hread := (List.forall₂_and_left _ _).2 ⟨fun _ hclause => hclause, Sheet.read_clauses h⟩
  refine hread.imp ?_
  rintro clause node ⟨hclause, hnode⟩ stop text hstop htext hfault hrobust
  obtain ⟨first, rest, hfirst, rfl⟩ := hnode.heading htext hstop
  obtain ⟨mark, hmark, rfl⟩ := Clause.Ending.exists_mark hstop
  have hfault' : first.isFaultless = true := by
    rw [hfirst] at hfault
    exact areFaultless_iff.1 hfault first List.mem_cons_self
  obtain ⟨before, stretches, after, spaces, hsplit, hafter, hstart, hend, hspaces, hkept, a, more,
    hcons, hcomment, hspace⟩ := exists_stretches hclause hmark hfirst hfault'
  have hstretches : (Source.ofText path t).stretchesOf clause.components mark.1 = stretches := by
    rw [hfirst, Source.stretchesOf, hstart, hend, Source.stretches_eq hsplit]
  rw [hstretches, Stretch.areRobust, Bool.and_eq_true, List.all_eq_true] at hrobust
  -- the text that is stored is that of the stretches
  have hsource : (Source.ofText path t).text
      = Stretch.textOf before ++ Stretch.textOf stretches ++ Stretch.textOf after := by
    rw [← Stretch.textOf_ofText (Source.ofText path t).text, hsplit, Stretch.textOf_append,
      Stretch.textOf_append, List.append_assoc]
  have hsturdy : ∀ b ∈ stretches, b.isComment = true ∨ b.isSpace = true ∨ b.isSturdy = true := by
    intro b hb
    simpa [or_assoc] using hrobust.1 b hb
  rw [hstart, hend, Source.slice_after hsource,
    Stretch.intercalate_removeComments hafter hsplit hsturdy hcons hcomment hspace]
  have hnormal : ∀ c ∈ Stretch.textOf (Stretch.respaced stretches), isNormal c = true := by
    intro c hc
    rcases Stretch.mem_respaced hc with rfl | hc
    · rfl
    · apply isNormal_normalizeNewlines (t := t)
      show c ∈ (Source.ofText path t).text
      rw [hsource]
      simp [hc]
  -- and both say what these stretches say
  have hreads := Stretch.reads_of_mem hafter hsplit
  rw [normalizeNewlines_eq_self hnormal, inkOf, inkOf, onlyOf_ofText (fun _ => rfl),
    Stretch.ofText_respaced hafter hsplit hrobust.2, onlyLexeme_respaced,
    onlyOf_faultless (fun _ => rfl) hfault, ← onlyLexemes_spaces hspaces, ← hkept,
    onlyLexemes_kept hreads]

/-- A selector with a comment and a line break. -/
theorem inkOf_heading_commented :
    ∃ sheet clause node, Sheet.read none "a/*x*/ >\nb\x7b\x7d".toList = .ok sheet
      ∧ clauses [] (Component.ofText (Source.ofText none "a/*x*/ >\nb\x7b\x7d".toList).text) = [clause]
      ∧ Node.inOrderOf sheet.children = [node] ∧ node.heading? = some "a > b".toList
      ∧ inkOf (Component.ofText (normalizeNewlines "a > b".toList)) = inkOf clause.components := by
  have hread : Sheet.read none "a/*x*/ >\nb\x7b\x7d".toList = .ok { children :=
      [.rule { lines := [['a', ' ', '>', ' ', 'b']], origin := ⟨some 1, none⟩ } []] } := by decide +kernel
  have hclauses : clauses [] (Component.ofText (Source.ofText none "a/*x*/ >\nb\x7b\x7d".toList).text)
      = [⟨[.leaf {} (.ident ['a']), .leaf ⟨1, 7⟩ (.whitespace [' ']), .leaf ⟨1, 8⟩ (.literal ['>']),
        .leaf ⟨1, 9⟩ (.whitespace ['\n']), .leaf ⟨2, 1⟩ (.ident ['b'])], .block ⟨2, 2⟩⟩] := by decide +kernel
  have hink := inkOf_heading hread
  rw [hclauses] at hink
  obtain ⟨hfirst, -⟩ := List.forall₂_cons.1 hink
  refine ⟨_, _, _, hread, hclauses, rfl, rfl, ?_⟩
  exact hfirst ⟨2, 2⟩ _ rfl rfl (by decide +kernel) (by decide +kernel)

/-- The inside of a URL is not a comment, but it is removed as one: `url(/*x*/)` becomes
`url()`, with no fault in the source. -/
theorem inkOf_heading_lost :
    ∃ sheet clause node, Sheet.read none "@import url(/*x*/);".toList = .ok sheet
      ∧ clauses [] (Component.ofText (Source.ofText none "@import url(/*x*/);".toList).text) = [clause]
      ∧ clause.ending.stop? = some ⟨1, 19⟩ ∧ areFaultless clause.components = true
      ∧ Node.inOrderOf sheet.children = [node] ∧ node.heading? = some "@import url()".toList
      ∧ inkOf (Component.ofText (normalizeNewlines "@import url()".toList)) ≠ inkOf clause.components := by
  have hread : Sheet.read none "@import url(/*x*/);".toList = .ok { children :=
      [.directive { value := "@import url()".toList, origin := ⟨some 1, none⟩ }] } := by decide +kernel
  have hclauses : clauses [] (Component.ofText (Source.ofText none "@import url(/*x*/);".toList).text)
      = [⟨[.leaf {} (.atKeyword "import".toList), .leaf ⟨1, 8⟩ (.whitespace [' ']),
        .leaf ⟨1, 9⟩ (.url "/*x*/".toList true)], .semicolon ⟨1, 19⟩⟩] := by decide +kernel
  exact ⟨_, _, _, hread, hclauses, rfl, by decide +kernel, rfl, rfl, by decide +kernel⟩

end NestedSheet
