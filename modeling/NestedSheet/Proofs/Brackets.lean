import NestedSheet.Component.Nest

/-!
# Matching brackets, lexeme by lexeme

Matching brackets goes through the lexemes of a text once.  What is known after some of them
is a `Nesting`: the frames that are open, and the components of the innermost one.  Every
further lexeme does one of five things to it (`Nesting.Step`), and at the end all that is open
is closed (`Nesting.components`).  So what holds of the components of a text is shown for one
step, and then for a run.

Main results:

* `Nesting.step_advance` — what one lexeme does.
* `ofText_eq_run` — the components of a text are those of a run over its lexemes.
-/

namespace NestedSheet

open Component

/-- The lexeme that opens a function or a block. -/
def Opener.lexeme : Opener → Lexeme
  | function name => .function name
  | block bracket => .opening bracket

/-- What is known of the components after some lexemes: the frames that are open, and the
components of the innermost one, the latest first. -/
structure Nesting where
  frames : List Frame := []
  inside : List Component := []

namespace Nesting

/-- After a closing bracket. -/
def shut (s : Nesting) (p : Position) (bracket : Bracket) : Nesting :=
  match s.frames with
  | [] => ⟨[], .leaf p (.unmatched bracket) :: s.inside⟩
  | frame :: frames =>
    if frame.opener.bracket = bracket then ⟨frames, frame.close s.inside⟩
    else ⟨frame :: frames, .leaf p (.unmatched bracket) :: s.inside⟩

/-- After one more lexeme. -/
def advance (s : Nesting) (p : Position) : Lexeme → Nesting
  | .leaf l => ⟨s.frames, .leaf p l :: s.inside⟩
  | .comment _ => s
  | .function name => ⟨⟨p, .function name, s.inside⟩ :: s.frames, []⟩
  | .opening bracket => ⟨⟨p, .block bracket, s.inside⟩ :: s.frames, []⟩
  | .closing bracket => s.shut p bracket

/-- After further lexemes. -/
def run (s : Nesting) (list : List (Position × Lexeme)) : Nesting :=
  list.foldl (fun s x => s.advance x.1 x.2) s

/-- The components, with all that is open closed. -/
def components (s : Nesting) : List Component :=
  closeAll s.frames s.inside

/-! ## One lexeme -/

variable {p : Position} {frames : List Frame} {inside : List Component}

/-- What a lexeme at a position does to what is open. -/
inductive Step (p : Position) : Lexeme → Nesting → Nesting → Prop
  | leaf {frames : List Frame} {inside : List Component} (l : Leaf) :
    Step p (.leaf l) ⟨frames, inside⟩ ⟨frames, .leaf p l :: inside⟩
  | comment {s : Nesting} (text : Text) : Step p (.comment text) s s
  | opens {frames : List Frame} {inside : List Component} (opener : Opener) :
    Step p opener.lexeme ⟨frames, inside⟩ ⟨⟨p, opener, inside⟩ :: frames, []⟩
  /-- A bracket that belongs to the innermost frame. -/
  | closes {frame : Frame} {frames : List Frame} {inside : List Component} :
    Step p (.closing frame.opener.bracket) ⟨frame :: frames, inside⟩ ⟨frames, frame.close inside⟩
  /-- A bracket of another kind closes nothing. -/
  | unmatched {frames : List Frame} {inside : List Component} {bracket : Bracket}
    (h : ∀ frame ∈ frames.head?, frame.opener.bracket ≠ bracket) :
    Step p (.closing bracket) ⟨frames, inside⟩ ⟨frames, .leaf p (.unmatched bracket) :: inside⟩

theorem shut_closes (frame : Frame) :
    shut ⟨frame :: frames, inside⟩ p frame.opener.bracket = ⟨frames, frame.close inside⟩ :=
  if_pos rfl

theorem shut_unmatched {bracket : Bracket}
    (h : ∀ frame ∈ frames.head?, frame.opener.bracket ≠ bracket) :
    shut ⟨frames, inside⟩ p bracket = ⟨frames, .leaf p (.unmatched bracket) :: inside⟩ := by
  cases frames with
  | nil => rfl
  | cons frame frames => exact if_neg (h frame rfl)

theorem step_advance (s : Nesting) (p : Position) (lexeme : Lexeme) :
    Step p lexeme s (s.advance p lexeme) := by
  obtain ⟨frames, inside⟩ := s
  cases lexeme with
  | leaf l => exact .leaf l
  | comment text => exact .comment text
  | function name => exact .opens (.function name)
  | opening bracket => exact .opens (.block bracket)
  | closing bracket =>
    rw [advance]
    cases frames with
    | nil => exact .unmatched nofun
    | cons frame frames =>
      by_cases hbracket : frame.opener.bracket = bracket
      · subst hbracket
        rw [shut_closes]
        exact .closes
      · have hother : ∀ other ∈ (frame :: frames).head?, other.opener.bracket ≠ bracket := by
          rintro _ ⟨⟩
          exact hbracket
        rw [shut_unmatched hother]
        exact .unmatched hother

/-- There is nothing else that a lexeme does. -/
theorem Step.eq_advance {lexeme : Lexeme} {s s' : Nesting} (h : Step p lexeme s s') :
    s' = s.advance p lexeme := by
  cases h with
  | leaf l => rfl
  | comment text => rfl
  | opens opener => cases opener <;> rfl
  | closes => exact (shut_closes _).symm
  | unmatched h => exact (shut_unmatched h).symm

/-! ## All lexemes -/

theorem run_cons (s : Nesting) (x : Position × Lexeme) (list : List (Position × Lexeme)) :
    s.run (x :: list) = (s.advance x.1 x.2).run list :=
  rfl

theorem run_append (s : Nesting) (list others : List (Position × Lexeme)) :
    s.run (list ++ others) = (s.run list).run others :=
  List.foldl_append ..

/-- Matching brackets goes from one lexeme to the next, and closes all at the end. -/
theorem nest_eq_run (frames : List Frame) (inside : List Component)
    (list : List (Position × Lexeme)) :
    nest frames inside list = (run ⟨frames, inside⟩ list).components := by
  induction frames, inside, list using nest.induct with
  | case1 frames inside => rw [nest]; rfl
  | case2 frames inside p l list ih => rw [nest, ih]; rfl
  | case3 frames inside p text list ih => rw [nest, ih]; rfl
  | case4 frames inside p name list ih => rw [nest, ih]; rfl
  | case5 frames inside p bracket list ih => rw [nest, ih]; rfl
  | case6 inside p bracket list ih => rw [nest, ih]; rfl
  | case7 frame frames inside p list ih =>
    rw [nest, if_pos rfl, ih, run_cons, advance, shut_closes]
  | case8 frame frames inside p bracket list hbracket ih =>
    rw [nest, if_neg hbracket, ih, run_cons, advance, shut_unmatched]
    rintro _ ⟨⟩
    exact hbracket

end Nesting

theorem Component.ofText_eq_run (t : Text) :
    ofText t = (Nesting.run {} (Lexeme.scan {} t)).components :=
  Nesting.nest_eq_run [] [] (Lexeme.scan {} t)

end NestedSheet
