import NestedSheet.Proofs.Lookahead

/-!
# Stretches of a text

A text is the texts of its lexemes, one behind the other.  A stretch is a lexeme with its
text, and `Stretch.ofText` divides a text into stretches; scanning says the same with
positions instead of texts (`Stretch.scan_eq_located`).

Stretches that were found in one text can be put together anew: if every stretch ends before
the text of those behind it (`Stretch.chained`), the new text divides into just these
stretches.

Main results:

* `Stretch.reads_of_ofText`: a stretch of a text, the last one apart, is found again
  wherever it ends.
* `Stretch.ofText_textOf`: the stretches of a text that is put together from stretches.
-/

namespace NestedSheet

open Component

/-- A lexeme with the text that it was read from. -/
structure Stretch where
  text : Text
  lexeme : Lexeme
deriving DecidableEq, Repr

namespace Stretch

/-! ## Dividing a text -/

/-- The stretches of a text. -/
def ofText : Text → List Stretch
  | [] => []
  | c :: cs =>
    let step := Lexeme.next c cs
    ⟨(c :: cs).take (cs.length + 1 - step.2.length), step.1⟩ :: ofText step.2
termination_by t => t.length
decreasing_by have := Lexeme.next_length c cs; simp only [List.length_cons]; omega

/-- The text of stretches. -/
def textOf (stretches : List Stretch) : Text :=
  stretches.flatMap Stretch.text

@[simp] theorem textOf_nil : textOf [] = [] := rfl

@[simp] theorem textOf_cons (a : Stretch) (stretches : List Stretch) :
    textOf (a :: stretches) = a.text ++ textOf stretches := rfl

@[simp] theorem textOf_append (stretches others : List Stretch) :
    textOf (stretches ++ others) = textOf stretches ++ textOf others :=
  List.flatMap_append

@[simp] theorem ofText_nil : ofText [] = [] := by
  rw [ofText]

/-- The first stretch of a text is its first lexeme. -/
theorem ofText_next {c : Char} {u rest : Text} {lexeme : Lexeme}
    (h : Lexeme.next c (u ++ rest) = (lexeme, rest)) :
    ofText (c :: u ++ rest) = ⟨c :: u, lexeme⟩ :: ofText rest := by
  have htaken : (c :: (u ++ rest)).take ((u ++ rest).length + 1 - rest.length) = c :: u := by
    rw [List.length_append, show u.length + rest.length + 1 - rest.length = u.length + 1 by omega,
      List.take_succ_cons, List.take_left]
  rw [List.cons_append, ofText]
  simp only [h, htaken]

/-- A text that is not empty has a first stretch. -/
theorem exists_ofText_cons (c : Char) (cs : Text) : ∃ u rest lexeme, cs = u ++ rest
    ∧ Lexeme.next c cs = (lexeme, rest) ∧ ofText (c :: cs) = ⟨c :: u, lexeme⟩ :: ofText rest := by
  obtain ⟨u, hu⟩ := Lexeme.next_suffix c cs
  have hnext : Lexeme.next c (u ++ (Lexeme.next c cs).2)
      = ((Lexeme.next c cs).1, (Lexeme.next c cs).2) := by rw [hu]
  have hstretches := ofText_next hnext
  rw [List.cons_append, hu] at hstretches
  exact ⟨u, _, _, hu.symm, rfl, hstretches⟩

/-- The stretches of a text make up the text. -/
theorem textOf_ofText (t : Text) : textOf (ofText t) = t := by
  induction t using ofText.induct with
  | case1 => rw [ofText_nil, textOf_nil]
  | case2 c cs step ih =>
    obtain ⟨u, rest, lexeme, hcs, hnext, hstretches⟩ := exists_ofText_cons c cs
    simp only [step, hnext] at ih
    rw [hstretches, textOf_cons, ih, hcs, List.cons_append]

/-- The last stretches of a text are the stretches of its end. -/
theorem ofText_end {stretches : List Stretch} : ∀ {before : List Stretch} {t : Text},
    ofText t = before ++ stretches → ofText (textOf stretches) = stretches := by
  intro before
  induction before with
  | nil =>
    intro t h
    rw [List.nil_append] at h
    rw [← h, textOf_ofText]
  | cons a before ih =>
    intro t h
    cases t with
    | nil => rw [ofText_nil] at h; cases h
    | cons c cs =>
      obtain ⟨u, rest, lexeme, -, -, hstretches⟩ := exists_ofText_cons c cs
      rw [hstretches, List.cons_append] at h
      exact ih (List.cons.inj h).2

/-- A stretch of a text was read where it stands. -/
theorem next_of_ofText {t : Text} {a : Stretch} {before after : List Stretch}
    (h : ofText t = before ++ a :: after) :
    ∃ c u, a.text = c :: u ∧ Lexeme.next c (u ++ textOf after) = (a.lexeme, textOf after) := by
  have hend := ofText_end h
  cases htext : textOf (a :: after) with
  | nil =>
    rw [htext, ofText_nil] at hend
    cases hend
  | cons c cs =>
    obtain ⟨u, rest, lexeme, rfl, hnext, hstretches⟩ := exists_ofText_cons c cs
    rw [htext, hstretches] at hend
    obtain ⟨rfl, rfl⟩ := List.cons.inj hend
    rw [textOf_ofText]
    exact ⟨c, u, rfl, hnext⟩

/-- Every stretch of a text was read as the first lexeme of some text. -/
theorem exists_next {t : Text} : ∀ a ∈ ofText t,
    ∃ c u rest, a.text = c :: u ∧ Lexeme.next c (u ++ rest) = (a.lexeme, rest) := by
  intro a ha
  obtain ⟨before, after, h⟩ := List.append_of_mem ha
  obtain ⟨c, u, htext, hnext⟩ := next_of_ofText h
  exact ⟨c, u, _, htext, hnext⟩

/-- Every stretch has some text. -/
theorem text_ne_nil {t : Text} : ∀ a ∈ ofText t, a.text ≠ [] := by
  intro a ha
  obtain ⟨c, u, rest, htext, -⟩ := exists_next a ha
  rw [htext]
  exact List.cons_ne_nil c u

/-! ## Positions -/

/-- The lexemes of stretches with their positions, the first of which is given. -/
def located (p : Position) : List Stretch → List (Position × Lexeme)
  | [] => []
  | a :: stretches => (p, a.lexeme) :: located (p.after a.text) stretches

theorem map_snd_located (p : Position) (stretches : List Stretch) :
    (located p stretches).map Prod.snd = stretches.map Stretch.lexeme := by
  induction stretches generalizing p with
  | nil => rfl
  | cons a stretches ih => rw [located, List.map_cons, List.map_cons, ih]

theorem located_append (p : Position) (stretches others : List Stretch) :
    located p (stretches ++ others)
      = located p stretches ++ located (p.after (textOf stretches)) others := by
  induction stretches generalizing p with
  | nil => rfl
  | cons a stretches ih =>
    rw [List.cons_append, located, located, ih, textOf_cons, Position.after_append,
      List.cons_append]

theorem located_eq_append {p : Position} {before after : List (Position × Lexeme)}
    {stretches : List Stretch} (h : located p stretches = before ++ after) :
    ∃ init rest, stretches = init ++ rest ∧ located p init = before
      ∧ located (p.after (textOf init)) rest = after := by
  induction before generalizing p stretches with
  | nil => exact ⟨[], stretches, rfl, rfl, h⟩
  | cons x before ih =>
    cases stretches with
    | nil => cases h
    | cons a stretches =>
      obtain ⟨hx, hrest⟩ := List.cons.inj h
      obtain ⟨init, rest, rfl, hinit, hafter⟩ := ih hrest
      refine ⟨a :: init, rest, rfl, ?_, ?_⟩
      · rw [located, hinit, hx]
      · rw [textOf_cons, Position.after_append]
        exact hafter

/-- A located lexeme stands behind the stretches before its own. -/
theorem exists_of_mem_located {p : Position} {stretches : List Stretch} {x : Position × Lexeme}
    (hx : x ∈ located p stretches) : ∃ before a after, stretches = before ++ a :: after
      ∧ x = (p.after (textOf before), a.lexeme) := by
  obtain ⟨lead, trail, hsplit⟩ := List.append_of_mem hx
  obtain ⟨before, after, rfl, -, hafter⟩ := located_eq_append hsplit
  cases after with
  | nil => cases hafter
  | cons a after => exact ⟨before, a, after, rfl, (List.cons.inj hafter).1.symm⟩

/-- Scanning a text gives its stretches with their positions. -/
theorem scan_eq_located (p : Position) (t : Text) : Lexeme.scan p t = located p (ofText t) := by
  induction t using ofText.induct generalizing p with
  | case1 => rw [ofText_nil, Lexeme.scan, located]
  | case2 c cs step ih =>
    obtain ⟨u, rest, lexeme, hcs, hnext, hstretches⟩ := exists_ofText_cons c cs
    simp only [step, hnext] at ih
    rw [hstretches, located, ← ih, hcs]
    rw [hcs] at hnext
    exact scan_next p hnext

/-- Whether there is an integer with too many digits does not depend on where the text stands. -/
theorem firstExcess?_scan (p : Position) (t : Text) :
    Lexeme.firstExcess? (Lexeme.scan p t) = ((ofText t).map lexeme).findSome? Lexeme.excess? := by
  rw [scan_eq_located, ← map_snd_located p, List.findSome?_map]
  rfl

/-! ## Putting stretches together -/

/-- The stretch is found wherever it ends. -/
def Reads (a : Stretch) : Prop :=
  ∀ rest, Lexeme.stops a.text a.lexeme rest = true →
    ∃ c u, a.text = c :: u ∧ Lexeme.next c (u ++ rest) = (a.lexeme, rest)

/-- Does every stretch end before the text of those behind it? -/
def chained : List Stretch → Bool
  | [] => true
  | a :: stretches => Lexeme.stops a.text a.lexeme (textOf stretches) && chained stretches

/-- A stretch that others follow is found wherever it ends. -/
theorem reads_of_ofText {t : Text} {a : Stretch} {before after : List Stretch} (hafter : after ≠ [])
    (h : ofText t = before ++ a :: after) : a.Reads := by
  have hne : textOf after ≠ [] := by
    obtain ⟨b, more, rfl⟩ := List.exists_cons_of_ne_nil hafter
    have hb : b.text ≠ [] := text_ne_nil b (by rw [h]; simp)
    simp [hb]
  obtain ⟨c, u, htext, hnext⟩ := next_of_ofText h
  obtain ⟨u', hu, hlocal⟩ := Lexeme.next_local hnext hne
  obtain rfl : u = u' := List.append_cancel_right hu
  intro rest hstops
  rw [htext] at hstops
  exact ⟨c, u, htext, hlocal rest hstops⟩

/-- **Stretches that end before one another are found again.** -/
theorem ofText_textOf {stretches : List Stretch} (hreads : ∀ a ∈ stretches, a.Reads)
    (hchained : chained stretches = true) : ofText (textOf stretches) = stretches := by
  induction stretches with
  | nil => rw [textOf_nil, ofText_nil]
  | cons a stretches ih =>
    rw [chained, Bool.and_eq_true] at hchained
    obtain ⟨c, u, htext, hnext⟩ := hreads a List.mem_cons_self _ hchained.1
    rw [textOf_cons, htext, ofText_next hnext,
      ih (fun b hb => hreads b (List.mem_cons_of_mem a hb)) hchained.2, ← htext]

end Stretch

end NestedSheet
