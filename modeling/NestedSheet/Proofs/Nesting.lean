import NestedSheet.Proofs.Brackets
import NestedSheet.Proofs.Stretches

/-!
# Components as lexemes

Matching brackets turns lexemes into components.  This module goes the other way:
`lexemesOf` writes components as lexemes again, and both ways fit together.  Whatever
the brackets of a text, its components are made of its lexemes in their order, with the
brackets that are missing at the end (`lexemesOf_ofText`); and components without a
fault are what their lexemes are read as (`run_lexemesOf`).

What two lists of components have in common is said with `onlyOf`: the components
without their positions and with only some of their leaves.  It is decided by the
lexemes alone (`onlyOf_ofText`, `onlyOf_faultless`).
-/

namespace NestedSheet

open Component

namespace Component

/-! ## Faults -/

mutual

/-- Is none of the leaves of a component a faulty one? -/
def isFaultless : Component → Bool
  | leaf _ l => l.fault?.isNone
  | function _ _ arguments => areFaultless arguments
  | block _ _ content => areFaultless content

/-- Is none of the leaves of components a faulty one? -/
def areFaultless : List Component → Bool
  | [] => true
  | c :: cs => isFaultless c && areFaultless cs

end

theorem areFaultless_iff {components : List Component} :
    areFaultless components = true ↔ ∀ c ∈ components, c.isFaultless = true := by
  induction components with
  | nil => simp [areFaultless]
  | cons c cs ih => simp [areFaultless, ih]

/-! ## Components as lexemes -/

/-- A closing bracket.  A component does not know where its closing bracket stands, so
it has no position here. -/
def closer (bracket : Bracket) : Position × Lexeme :=
  ({}, .closing bracket)

/-- The lexeme of a leaf: a bracket that closes nothing is a closing bracket. -/
def leafLexeme (p : Position) : Leaf → Position × Lexeme
  | .unmatched bracket => closer bracket
  | l => (p, .leaf l)

mutual

/-- The lexemes of a component. -/
def lexemes : Component → List (Position × Lexeme)
  | leaf p l => [leafLexeme p l]
  | function p name arguments => (p, .function name) :: (lexemesOf arguments ++ [closer .round])
  | block p bracket content => (p, .opening bracket) :: (lexemesOf content ++ [closer bracket])

/-- The lexemes of components. -/
def lexemesOf : List Component → List (Position × Lexeme)
  | [] => []
  | c :: cs => lexemes c ++ lexemesOf cs

end

@[simp] theorem lexemesOf_append (components others : List Component) :
    lexemesOf (components ++ others) = lexemesOf components ++ lexemesOf others := by
  induction components with
  | nil => rfl
  | cons c cs ih => rw [List.cons_append, lexemesOf, lexemesOf, ih, List.append_assoc]

@[simp] theorem lexemesOf_singleton (c : Component) : lexemesOf [c] = lexemes c := by
  rw [lexemesOf, lexemesOf, List.append_nil]

/-- What components keep of a lexeme: no comments, and no positions of closing
brackets. -/
def kept? : Position × Lexeme → Option (Position × Lexeme)
  | (_, .comment _) => none
  | (_, .closing bracket) => some (closer bracket)
  | (p, .leaf l) => some (leafLexeme p l)
  | lexeme => some lexeme

/-- The lexemes of what is open: the components before each frame, and its opening
bracket. -/
def opened : List Frame → List (Position × Lexeme)
  | [] => []
  | frame :: frames => opened frames ++ lexemesOf frame.before.reverse
      ++ [(frame.position, match frame.opener with
        | .function name => .function name
        | .block bracket => .opening bracket)]

/-- Closing a frame puts its closing bracket behind what is open. -/
theorem lexemesOf_close (frame : Frame) (inside : List Component) (frames : List Frame) :
    opened frames ++ lexemesOf (frame.close inside).reverse
      = opened (frame :: frames) ++ lexemesOf inside.reverse
        ++ [closer frame.opener.bracket] := by
  obtain ⟨p, opener, before⟩ := frame
  rw [Frame.close, List.reverse_cons, lexemesOf_append, lexemesOf_singleton, opened]
  cases opener <;> simp [Opener.close, Opener.bracket, lexemes]

/-- Are the lexemes closing brackets only? -/
def AreClosing (lexemes : List (Position × Lexeme)) : Prop :=
  ∀ x ∈ lexemes, ∃ bracket, x.2 = .closing bracket

theorem lexemesOf_closeAll (frames : List Frame) (inside : List Component) :
    ∃ missing, AreClosing missing
      ∧ lexemesOf (closeAll frames inside) = opened frames ++ lexemesOf inside.reverse ++ missing := by
  induction frames generalizing inside with
  | nil => exact ⟨[], nofun, by simp [closeAll, opened]⟩
  | cons frame frames ih =>
    obtain ⟨missing, hmissing, heq⟩ := ih (frame.close inside)
    refine ⟨closer frame.opener.bracket :: missing, ?_, ?_⟩
    · intro x hx
      rcases List.mem_cons.1 hx with rfl | hx
      · exact ⟨_, rfl⟩
      · exact hmissing x hx
    · rw [lexemesOf_close] at heq
      simpa [closeAll] using heq

end Component

namespace Nesting

/-- The lexemes of what is open and of the components in it. -/
def lexemes (s : Nesting) : List (Position × Lexeme) :=
  opened s.frames ++ lexemesOf s.inside.reverse

variable {s s' : Nesting}

/-- One step keeps the lexeme. -/
theorem Step.lexemes {p : Position} {lexeme : Lexeme} (h : Step p lexeme s s') :
    s'.lexemes = s.lexemes ++ (kept? (p, lexeme)).toList := by
  cases h with
  | leaf l => simp [Nesting.lexemes, Component.lexemes, kept?]
  | comment text => simp [kept?]
  | opens opener => cases opener <;> simp [Nesting.lexemes, opened, lexemesOf, Opener.lexeme, kept?]
  | @closes frame frames inside =>
    rw [Nesting.lexemes, lexemesOf_close, Nesting.lexemes]
    rfl
  | unmatched h => simp [Nesting.lexemes, Component.lexemes, leafLexeme, kept?]

/-- **Matching brackets keeps the lexemes and their order.** -/
theorem lexemes_run (s : Nesting) (list : List (Position × Lexeme)) :
    (s.run list).lexemes = s.lexemes ++ list.filterMap kept? := by
  induction list generalizing s with
  | nil => rw [List.filterMap_nil, List.append_nil]; rfl
  | cons x list ih =>
    rw [run_cons, ih, (step_advance s x.1 x.2).lexemes, List.append_assoc]
    cases hx : kept? x <;> simp [hx]

end Nesting

namespace Component

/-- The components of a text are made of its lexemes, with the closing brackets that are
missing at the end. -/
theorem lexemesOf_ofText (t : Text) : ∃ missing, AreClosing missing
    ∧ lexemesOf (ofText t) = (Stretch.located {} (Stretch.ofText t)).filterMap kept? ++ missing := by
  rw [ofText_eq_run, Stretch.scan_eq_located]
  obtain ⟨missing, hmissing, heq⟩ := lexemesOf_closeAll
    (Nesting.run {} (Stretch.located {} (Stretch.ofText t))).frames _
  refine ⟨missing, hmissing, heq.trans ?_⟩
  exact congrArg (· ++ missing) (Nesting.lexemes_run {} _)

/-! ## Components without a fault -/

theorem leafLexeme_faultless {l : Leaf} (h : l.fault? = none) (p : Position) :
    leafLexeme p l = (p, .leaf l) := by
  cases l with
  | unmatched bracket => cases h
  | _ => rfl

/-- What is read between the two brackets becomes the content. -/
theorem run_brackets (opener : Opener) (p : Position) {list : List (Position × Lexeme)}
    {content : List Component}
    (h : ∀ s : Nesting, s.run list = ⟨s.frames, content.reverse ++ s.inside⟩) (s : Nesting) :
    s.run ((p, opener.lexeme) :: (list ++ [closer opener.bracket]))
      = ⟨s.frames, opener.close p content :: s.inside⟩ := by
  have hopened := (@Nesting.Step.opens p s.frames s.inside opener).eq_advance
  rw [Nesting.run_cons, ← hopened, Nesting.run_append, h, List.append_nil]
  refine (Nesting.shut_closes (Frame.mk p opener s.inside)).trans ?_
  rw [Frame.close, List.reverse_reverse]

mutual

theorem run_lexemes : ∀ {c : Component}, isFaultless c = true → ∀ s : Nesting,
    s.run (lexemes c) = ⟨s.frames, c :: s.inside⟩
  | leaf p l, h, s => by
    rw [isFaultless, Option.isNone_iff_eq_none] at h
    rw [lexemes, leafLexeme_faultless h]
    rfl
  | function p name arguments, h, s => by
    rw [isFaultless] at h
    rw [lexemes]
    exact run_brackets (.function name) p (run_lexemesOf h) s
  | block p bracket content, h, s => by
    rw [isFaultless] at h
    rw [lexemes]
    exact run_brackets (.block bracket) p (run_lexemesOf h) s

/-- Components without a fault are what their lexemes are read as. -/
theorem run_lexemesOf : ∀ {components : List Component}, areFaultless components = true →
    ∀ s : Nesting, s.run (lexemesOf components) = ⟨s.frames, components.reverse ++ s.inside⟩
  | [], _, s => rfl
  | c :: cs, h, s => by
    rw [areFaultless, Bool.and_eq_true] at h
    rw [lexemesOf, Nesting.run_append, run_lexemes h.1, run_lexemesOf h.2, List.reverse_cons,
      List.append_assoc, List.singleton_append]

end

/-! ## Parts of components -/

section Only

variable (keep : Leaf → Bool)

mutual

/-- The component without its positions, and with only the leaves that are kept. -/
def only : Component → List Component
  | leaf _ l => if keep l then [leaf {} l] else []
  | function _ name arguments => [function {} name (onlyOf arguments)]
  | block _ bracket content => [block {} bracket (onlyOf content)]

/-- The components without their positions, and with only the leaves that are kept. -/
def onlyOf : List Component → List Component
  | [] => []
  | c :: cs => only c ++ onlyOf cs

end

@[simp] theorem onlyOf_append (components others : List Component) :
    onlyOf keep (components ++ others) = onlyOf keep components ++ onlyOf keep others := by
  induction components with
  | nil => rfl
  | cons c cs ih => rw [List.cons_append, onlyOf, onlyOf, ih, List.append_assoc]

@[simp] theorem onlyOf_singleton (c : Component) : onlyOf keep [c] = only keep c := by
  rw [onlyOf, onlyOf, List.append_nil]

/-- What is kept of a lexeme. -/
def onlyLexeme : Lexeme → List Lexeme
  | .leaf l => if keep l then [.leaf l] else []
  | .comment _ => []
  | .function name => [.function name]
  | .opening bracket => [.opening bracket]
  | .closing bracket => [.closing bracket]

/-- The lexemes without positions. -/
def unplaced (list : List Lexeme) : List (Position × Lexeme) :=
  list.map fun lexeme => ({}, lexeme)

/-- The components of lexemes, without positions. -/
def ofLexemes (list : List Lexeme) : List Component :=
  nest [] [] (unplaced list)

/-- What is kept of lexemes. -/
def onlyLexemes (list : List (Position × Lexeme)) : List Lexeme :=
  list.flatMap fun lexeme => onlyLexeme keep lexeme.2

theorem unplaced_onlyLexemes_cons (p : Position) (lexeme : Lexeme) (list : List (Position × Lexeme)) :
    unplaced (onlyLexemes keep ((p, lexeme) :: list))
      = unplaced (onlyLexeme keep lexeme) ++ unplaced (onlyLexemes keep list) := by
  rw [unplaced, onlyLexemes, List.flatMap_cons, List.map_append]
  rfl

/-- What is kept of the components before a position, the latest first. -/
def onlyBefore (inside : List Component) : List Component :=
  (onlyOf keep inside.reverse).reverse

/-- What is kept of a frame. -/
def onlyFrame (frame : Frame) : Frame :=
  ⟨{}, frame.opener, onlyBefore keep frame.before⟩

theorem onlyBefore_cons (c : Component) (inside : List Component) :
    onlyBefore keep (c :: inside) = (only keep c).reverse ++ onlyBefore keep inside := by
  rw [onlyBefore, List.reverse_cons, onlyOf_append, onlyOf_singleton, List.reverse_append, onlyBefore]

theorem only_close (opener : Opener) (p : Position) (content : List Component) :
    only keep (opener.close p content) = [opener.close {} (onlyOf keep content)] := by
  cases opener <;> rw [Opener.close, only, Opener.close]

theorem onlyBefore_close (frame : Frame) (inside : List Component) :
    onlyBefore keep (frame.close inside) = (onlyFrame keep frame).close (onlyBefore keep inside) := by
  rw [Frame.close, onlyBefore_cons, only_close, Frame.close, onlyBefore, onlyBefore,
    List.reverse_reverse]
  rfl

theorem onlyOf_closeAll (frames : List Frame) (inside : List Component) :
    onlyOf keep (closeAll frames inside)
      = closeAll (frames.map (onlyFrame keep)) (onlyBefore keep inside) := by
  induction frames generalizing inside with
  | nil => simp [closeAll, onlyBefore]
  | cons frame frames ih =>
    have hclose := ih (frame.close inside)
    rw [onlyBefore_close] at hclose
    simpa [closeAll] using hclose

/-- What is kept of what is open. -/
def onlyOpen (s : Nesting) : Nesting :=
  ⟨s.frames.map (onlyFrame keep), onlyBefore keep s.inside⟩

variable {keep} (hkeep : ∀ bracket, keep (.unmatched bracket) = true)

include hkeep

/-- One step with what is kept leads to what is kept after it. -/
theorem onlyOpen_advance {p : Position} {lexeme : Lexeme} {s s' : Nesting}
    (h : Nesting.Step p lexeme s s') :
    onlyOpen keep s' = (onlyOpen keep s).run (unplaced (onlyLexeme keep lexeme)) := by
  cases h with
  | leaf l =>
    rw [onlyLexeme, onlyOpen, onlyBefore_cons, only]
    split <;> rfl
  | comment text => rfl
  | opens opener => cases opener <;> rfl
  | @closes frame frames inside =>
    rw [onlyLexeme, onlyOpen, onlyBefore_close]
    exact (Nesting.shut_closes (onlyFrame keep frame)).symm
  | @unmatched frames inside bracket hother =>
    have hother' : ∀ frame ∈ (frames.map (onlyFrame keep)).head?, frame.opener.bracket ≠ bracket := by
      cases frames with
      | nil => nofun
      | cons frame frames =>
        rintro _ ⟨⟩
        exact hother frame rfl
    rw [onlyLexeme, onlyOpen, onlyBefore_cons, only, if_pos (hkeep bracket)]
    exact (Nesting.shut_unmatched hother').symm

/-- **What is kept of what is open is decided by what is kept of the lexemes.** -/
theorem onlyOpen_run (s : Nesting) (list : List (Position × Lexeme)) :
    onlyOpen keep (s.run list) = (onlyOpen keep s).run (unplaced (onlyLexemes keep list)) := by
  induction list generalizing s with
  | nil => rfl
  | cons x list ih =>
    rw [Nesting.run_cons, ih, onlyOpen_advance hkeep (s.step_advance x.1 x.2),
      unplaced_onlyLexemes_cons, Nesting.run_append]

theorem onlyOf_components (list : List (Position × Lexeme)) :
    onlyOf keep (Nesting.run {} list).components = ofLexemes (onlyLexemes keep list) := by
  rw [ofLexemes, Nesting.nest_eq_run, Nesting.components, onlyOf_closeAll]
  exact congrArg Nesting.components (onlyOpen_run hkeep {} list)

/-- What is kept of the components of a text is decided by its stretches. -/
theorem onlyOf_ofText (t : Text) : onlyOf keep (ofText t)
    = ofLexemes ((Stretch.ofText t).flatMap fun a => onlyLexeme keep a.lexeme) := by
  have hlexemes : onlyLexemes keep (Stretch.located {} (Stretch.ofText t))
      = (Stretch.ofText t).flatMap fun a => onlyLexeme keep a.lexeme := by
    have hmap := congrArg (List.flatMap (onlyLexeme keep)) (Stretch.map_snd_located {} (Stretch.ofText t))
    rwa [List.flatMap_map, List.flatMap_map] at hmap
  rw [ofText_eq_run, onlyOf_components hkeep, Stretch.scan_eq_located, hlexemes]

/-- What is kept of components without a fault is decided by their lexemes. -/
theorem onlyOf_faultless {components : List Component} (h : areFaultless components = true) :
    onlyOf keep components = ofLexemes (onlyLexemes keep (lexemesOf components)) := by
  have hrun : (Nesting.run {} (lexemesOf components)).components = components := by
    rw [run_lexemesOf h, List.append_nil]
    exact List.reverse_reverse components
  rw [← onlyOf_components hkeep, hrun]

end Only

end Component

end NestedSheet
