import NestedSheet.Proofs.Boundaries

/-!
# Numbers

The texts of numbers have a grammar: a sign (`IsSign`), a mantissa (`IsMantissa`) and an
exponent (`IsExponent`), of which only the mantissa has to be there, make a `Numeral`.  How much of
a text is a number depends on what stands behind it as well, which `endsNumber` tests.

The two together are what the reader does: what it reads is a numeral that ends before the text
behind it (`numeral_of_readNumber?`), and a numeral is read before every text that it ends before
(`Numeral.read`).  Whether there is a number at all is seen from the first characters
(`readNumber?_isNone`), and so it is for an exponent (`readExponent_isEmpty`).
-/

namespace NestedSheet.Component

/-- Has a number an exponent? -/
def hasExponent (digits : Text) : Bool :=
  digits.any fun c => c == 'e' || c == 'E'

/-- Does a number end before the text?  A number has at most one point, which its
exponent comes after, and at most one exponent. -/
def endsNumber (digits rest : Text) : Bool :=
  !rest.head?.any Char.isDigit
    && (hasExponent digits || digits.contains '.'
      || !(rest.head? == some '.' && (rest.drop 1).head?.any Char.isDigit))
    && (hasExponent digits || (readExponent rest).1.isEmpty)

theorem any_dropWhile (p : Char → Bool) (t : Text) : (t.dropWhile p).head?.any p = false := by
  obtain ⟨run, rest, rfl, hrun, hrest⟩ := exists_takeWhile p t
  rwa [dropWhile_run hrun hrest]

theorem takeWhile_isEmpty (p : Char → Bool) (t : Text) :
    (t.takeWhile p).isEmpty = !t.head?.any p := by
  cases t with
  | nil => rfl
  | cons c cs => cases hc : p c <;> simp [hc]

/-! ## Signs -/

/-- The text of a sign, if there is one. -/
inductive IsSign : Text → Prop
  | plus : IsSign ['+']
  | minus : IsSign ['-']
  | none : IsSign []

theorem isSign_readSign (t : Text) : IsSign (readSign t).1 := by
  unfold readSign
  split
  · exact .plus
  · exact .minus
  · exact .none

/-- A sign is read before every character that is none. -/
theorem IsSign.read {sign : Text} (h : IsSign sign) {c : Char} (hc : c ≠ '+' ∧ c ≠ '-')
    (cs : Text) : readSign (sign ++ c :: cs) = (sign, c :: cs) := by
  cases h with
  | plus | minus => rfl
  | none => exact readSign_stop hc cs

theorem not_sign_of_isDigit {c : Char} (hc : c.isDigit = true) : c ≠ '+' ∧ c ≠ '-' := by
  constructor <;>
  · rintro rfl
    cases hc

/-! ## Where numbers start -/

/-- Does a point with a digit behind it start here? -/
def startsFraction (t : Text) : Bool :=
  t.head? == some '.' && (t.drop 1).head?.any Char.isDigit

/-- Do digits start here, perhaps with a point before them? -/
def startsDigits (t : Text) : Bool :=
  t.head?.any Char.isDigit || (t.head? == some '.' && (t.drop 1).head?.any Char.isDigit)

/-- Is there a sign here or not, and then what the test asks for? -/
def behindSign (f : Text → Bool) (t : Text) : Bool :=
  f t || (t.head? == some '+' && f (t.drop 1)) || (t.head? == some '-' && f (t.drop 1))

/-- Does an exponent start here? -/
def startsExponent (t : Text) : Bool :=
  (t.head? == some 'e' && behindSign (fun u => u.head?.any Char.isDigit) (t.drop 1))
    || (t.head? == some 'E' && behindSign (fun u => u.head?.any Char.isDigit) (t.drop 1))

theorem startsFraction_iff {t : Text} : startsFraction t = true
    ↔ t.head? = some '.' ∧ (t.drop 1).takeWhile Char.isDigit ≠ [] := by
  rw [startsFraction, Bool.and_eq_true, beq_iff_eq, ← List.isEmpty_eq_false_iff, takeWhile_isEmpty,
    Bool.not_eq_false']

theorem behindSign_eq {f : Text → Bool} (hplus : ∀ cs, f ('+' :: cs) = false)
    (hminus : ∀ cs, f ('-' :: cs) = false) (t : Text) : behindSign f t = f (readSign t).2 := by
  unfold behindSign readSign
  split
  · next cs => simp [hplus cs]
  · next cs => simp [hminus cs]
  · next hp hm =>
    have hplus' : t.head? ≠ some '+' := by
      intro h
      obtain ⟨cs, rfl⟩ := List.head?_eq_some_iff.1 h
      exact hp cs rfl
    have hminus' : t.head? ≠ some '-' := by
      intro h
      obtain ⟨cs, rfl⟩ := List.head?_eq_some_iff.1 h
      exact hm cs rfl
    rw [beq_eq_false_iff_ne.2 hplus', beq_eq_false_iff_ne.2 hminus']
    simp

theorem readMantissa?_isSome (t : Text) : (readMantissa? t).isSome = startsDigits t := by
  obtain ⟨whole, after, rfl, hwhole, hafter⟩ := exists_takeWhile Char.isDigit t
  unfold readMantissa?
  rw [takeWhile_run hwhole hafter, dropWhile_run hwhole hafter]
  cases whole with
  | nil =>
    simp only [← startsFraction_iff, List.nil_append, ne_eq, not_true_eq_false, if_false]
    rw [startsDigits, hafter, Bool.false_or, ← startsFraction]
    cases startsFraction after <;> rfl
  | cons c cs =>
    have hc := hwhole c List.mem_cons_self
    simp only [startsDigits, List.cons_append, List.head?_cons, Option.any_some, hc, Bool.true_or]
    split <;> simp

/-- A number starts with digits, or with a point that has digits behind it, behind its sign. -/
theorem readNumber?_isNone (t : Text) : (readNumber? t).isNone = !behindSign startsDigits t := by
  rw [behindSign_eq (fun _ => rfl) (fun _ => rfl), ← readMantissa?_isSome]
  unfold readNumber?
  simp only
  split
  · next h => rw [h]; rfl
  · next h => rw [h]; rfl

theorem readNumber?_digit {c : Char} (hc : c.isDigit = true) (cs : Text) :
    readNumber? (c :: cs) ≠ none := by
  rw [ne_eq, ← Option.isNone_iff_eq_none, readNumber?_isNone]
  simp [behindSign, startsDigits, hc]

/-- No digit stands behind a hyphen or a point with which no number starts. -/
theorem not_digit_of_readNumber? {c : Char} (hc : c = '-' ∨ c = '.') {u : Text}
    (h : readNumber? (c :: u) = none) : u.head?.any Char.isDigit = false := by
  rw [← Option.isNone_iff_eq_none, readNumber?_isNone, Bool.not_eq_true'] at h
  rw [Bool.eq_false_iff]
  intro hdigit
  rcases hc with rfl | rfl <;> simp [behindSign, startsDigits, hdigit] at h

/-- An exponent is a letter with digits behind it, or behind its sign. -/
theorem readExponent_isEmpty (t : Text) : (readExponent t).1.isEmpty = !startsExponent t := by
  cases t with
  | nil => rfl
  | cons e cs =>
    have hdigits := takeWhile_isEmpty Char.isDigit (readSign cs).2
    have hsign : behindSign (fun u => u.head?.any Char.isDigit) cs
        = (readSign cs).2.head?.any Char.isDigit := behindSign_eq (fun _ => rfl) (fun _ => rfl) cs
    rw [startsExponent, List.drop_one, List.tail_cons, hsign, ← Bool.and_or_distrib_right]
    unfold readExponent
    simp only [List.head?_cons]
    split
    · next hexponent =>
      have hsome := List.isEmpty_eq_false_iff.2 hexponent.2
      rw [hdigits, Bool.not_eq_false'] at hsome
      rw [hsome, Bool.and_true]
      rcases hexponent.1 with rfl | rfl <;> rfl
    · next hexponent =>
      rw [← List.isEmpty_eq_false_iff, hdigits, Bool.not_eq_false'] at hexponent
      simpa [imp_iff_not_or] using hexponent

theorem readExponent_none {t : Text} (h : (readExponent t).1 = []) : readExponent t = ([], t) := by
  refine Prod.ext h ?_
  have happend := readExponent_append t
  rwa [h, List.nil_append] at happend

/-! ## The parts of a number -/

/-- The text of a mantissa: digits, or digits behind a point with others before it or not. -/
inductive IsMantissa : Text → Prop
  | whole {digits : Text} (hdigits : ∀ c ∈ digits, c.isDigit = true) (hne : digits ≠ []) :
      IsMantissa digits
  | fraction {whole digits : Text} (hwhole : ∀ c ∈ whole, c.isDigit = true)
      (hdigits : ∀ c ∈ digits, c.isDigit = true) (hne : digits ≠ []) :
      IsMantissa (whole ++ '.' :: digits)

/-- A text does not go on with the mantissa before it. -/
structure EndsMantissa (mantissa rest : Text) : Prop where
  digit : rest.head?.any Char.isDigit = false
  fraction : '.' ∈ mantissa ∨ startsFraction rest = false

/-- The text of an exponent. -/
inductive IsExponent : Text → Prop
  | mk {e : Char} {sign digits : Text} (he : e = 'e' ∨ e = 'E') (hsign : IsSign sign)
      (hdigits : ∀ c ∈ digits, c.isDigit = true) (hne : digits ≠ []) :
      IsExponent (e :: (sign ++ digits))

section Parts

variable {mantissa exponent rest : Text}

theorem IsMantissa.chars (h : IsMantissa mantissa) : ∀ c ∈ mantissa, c.isDigit = true ∨ c = '.' := by
  cases h with
  | whole hdigits => exact fun c hc => Or.inl (hdigits c hc)
  | fraction hwhole hdigits =>
    intro c hc
    rcases List.mem_append.1 hc with hc | hc
    · exact Or.inl (hwhole c hc)
    · rcases List.mem_cons.1 hc with rfl | hc
      · exact Or.inr rfl
      · exact Or.inl (hdigits c hc)

theorem IsMantissa.exists_cons (h : IsMantissa mantissa) :
    ∃ c cs, mantissa = c :: cs ∧ (c.isDigit = true ∨ c = '.') := by
  have hne : mantissa ≠ [] := by
    cases h with
    | whole _ hne => exact hne
    | fraction => simp
  obtain ⟨c, cs, rfl⟩ := List.exists_cons_of_ne_nil hne
  exact ⟨c, cs, rfl, h.chars c List.mem_cons_self⟩

/-- A mantissa is read before every text that does not go on with it. -/
theorem IsMantissa.read (h : IsMantissa mantissa) (hends : EndsMantissa mantissa rest) :
    readMantissa? (mantissa ++ rest) = some (mantissa, rest) := by
  unfold readMantissa?
  cases h with
  | whole hdigits hne =>
    have hpoint : '.' ∉ mantissa := fun hmem => absurd (hdigits '.' hmem) (by decide)
    have hfraction := hends.fraction.resolve_left hpoint
    rw [takeWhile_run hdigits hends.digit, dropWhile_run hdigits hends.digit]
    simp only [← startsFraction_iff, hfraction, Bool.false_eq_true, if_false, if_pos hne]
  | @fraction whole digits hwhole hdigits hne =>
    have hstop : ('.' :: (digits ++ rest)).head?.any Char.isDigit = false := rfl
    rw [List.append_assoc, List.cons_append, takeWhile_run hwhole hstop, dropWhile_run hwhole hstop]
    simp only [List.head?_cons, List.drop_one, List.tail_cons, takeWhile_run hdigits hends.digit,
      dropWhile_run hdigits hends.digit]
    exact if_pos ⟨trivial, hne⟩

/-- What was read as a mantissa is one, and the text behind it does not go on with it. -/
theorem isMantissa_of_readMantissa? {t : Text} (h : readMantissa? t = some (mantissa, rest)) :
    IsMantissa mantissa ∧ EndsMantissa mantissa rest := by
  obtain ⟨whole, after, rfl, hwhole, hafter⟩ := exists_takeWhile Char.isDigit t
  unfold readMantissa? at h
  rw [takeWhile_run hwhole hafter, dropWhile_run hwhole hafter] at h
  simp only [← startsFraction_iff] at h
  split at h
  · next hfraction =>
    obtain ⟨hpoint, hne⟩ := startsFraction_iff.1 hfraction
    obtain ⟨ds, rfl⟩ := List.head?_eq_some_iff.1 hpoint
    obtain ⟨digits, behind, rfl, hdigits, hbehind⟩ := exists_takeWhile Char.isDigit ds
    rw [List.drop_one, List.tail_cons, takeWhile_run hdigits hbehind] at hne h
    rw [dropWhile_run hdigits hbehind] at h
    obtain ⟨rfl, rfl⟩ := Prod.mk.inj (Option.some.inj h)
    exact ⟨.fraction hwhole hdigits hne, hbehind, Or.inl (by simp)⟩
  · next hfraction =>
    split at h
    · next hne =>
      obtain ⟨rfl, rfl⟩ := Prod.mk.inj (Option.some.inj h)
      exact ⟨.whole hwhole hne, hafter, Or.inr (Bool.eq_false_iff.2 hfraction)⟩
    · cases h

/-- An exponent separates the mantissa from what stands behind. -/
theorem IsExponent.endsMantissa (h : IsExponent exponent) (mantissa rest : Text) :
    EndsMantissa mantissa (exponent ++ rest) := by
  obtain ⟨rfl | rfl, -, -, -⟩ := h <;> exact ⟨rfl, Or.inr rfl⟩

/-- An exponent is read before every text that starts with no digit. -/
theorem IsExponent.read (h : IsExponent exponent) (hdigit : rest.head?.any Char.isDigit = false) :
    readExponent (exponent ++ rest) = (exponent, rest) := by
  obtain ⟨he, hsign, hdigits, hne⟩ := h
  rename_i e sign digits
  have hread : readSign (sign ++ (digits ++ rest)) = (sign, digits ++ rest) := by
    obtain ⟨d, ds, rfl⟩ := List.exists_cons_of_ne_nil hne
    exact hsign.read (not_sign_of_isDigit (hdigits d List.mem_cons_self)) _
  simp only [List.cons_append, List.append_assoc, readExponent, hread, takeWhile_run hdigits hdigit,
    dropWhile_run hdigits hdigit, if_pos (And.intro he hne)]

/-- What was read as an exponent is one, and no digit stands behind it. -/
theorem isExponent_readExponent {t : Text} (h : (readExponent t).1 ≠ []) :
    IsExponent (readExponent t).1 ∧ (readExponent t).2.head?.any Char.isDigit = false := by
  cases t with
  | nil => exact absurd rfl h
  | cons e cs =>
    simp only [readExponent] at h ⊢
    split at h
    · next hexponent =>
      rw [if_pos hexponent]
      exact ⟨.mk hexponent.1 (isSign_readSign cs) (fun c hc => List.mem_takeWhile_imp hc) hexponent.2,
        any_dropWhile _ _⟩
    · exact absurd rfl h

end Parts

/-! ## Numbers -/

/-- The text of a number. -/
inductive Numeral : Text → Prop
  | plain {sign mantissa : Text} (hsign : IsSign sign) (hmantissa : IsMantissa mantissa) :
      Numeral (sign ++ mantissa)
  | scientific {sign mantissa exponent : Text} (hsign : IsSign sign) (hmantissa : IsMantissa mantissa)
      (hexponent : IsExponent exponent) : Numeral (sign ++ mantissa ++ exponent)

section Numbers

variable {sign mantissa exponent digits rest : Text}

theorem hasExponent_plain (hsign : IsSign sign) (hmantissa : IsMantissa mantissa) :
    hasExponent (sign ++ mantissa) = false := by
  have hletters : mantissa.any (fun c => c == 'e' || c == 'E') = false := by
    rw [List.any_eq_false]
    intro c hc hletter
    simp only [Bool.or_eq_true, beq_iff_eq] at hletter
    rcases hletter with rfl | rfl <;> exact absurd (hmantissa.chars _ hc) (by decide)
  rw [hasExponent, List.any_append, hletters]
  cases hsign <;> rfl

theorem hasExponent_scientific (hexponent : IsExponent exponent) :
    hasExponent (sign ++ mantissa ++ exponent) = true := by
  obtain ⟨rfl | rfl, -, -, -⟩ := hexponent <;> simp [hasExponent]

theorem endsNumber_plain (hsign : IsSign sign) (hmantissa : IsMantissa mantissa) :
    endsNumber (sign ++ mantissa) rest = true
      ↔ EndsMantissa mantissa rest ∧ (readExponent rest).1 = [] := by
  have hpoint : (sign ++ mantissa).contains '.' = mantissa.contains '.' := by
    cases hsign <;> simp
  rw [endsNumber, hasExponent_plain hsign hmantissa, hpoint, ← startsFraction]
  simp only [Bool.false_or, Bool.and_eq_true, Bool.or_eq_true, Bool.not_eq_true', List.isEmpty_iff,
    List.contains_iff_mem]
  exact and_congr_left' ⟨fun h => ⟨h.1, h.2⟩, fun h => ⟨h.digit, h.fraction⟩⟩

theorem endsNumber_scientific (hexponent : IsExponent exponent) :
    endsNumber (sign ++ mantissa ++ exponent) rest = !rest.head?.any Char.isDigit := by
  rw [endsNumber, hasExponent_scientific hexponent]
  simp only [Bool.true_or, Bool.and_true]

theorem readNumber?_parts (hsign : IsSign sign) (hmantissa : IsMantissa mantissa)
    (hends : EndsMantissa mantissa rest) : readNumber? (sign ++ (mantissa ++ rest))
      = some (sign ++ mantissa ++ (readExponent rest).1, (readExponent rest).2) := by
  obtain ⟨c, cs, rfl, hc⟩ := hmantissa.exists_cons
  have hsign' : c ≠ '+' ∧ c ≠ '-' := by
    rcases hc with hc | rfl
    · exact not_sign_of_isDigit hc
    · decide
  have hread := hmantissa.read hends
  rw [List.cons_append] at hread ⊢
  simp only [readNumber?, hsign.read hsign', hread]

/-- **A numeral is read as a number before every text that it ends before.** -/
theorem Numeral.read (h : Numeral digits) (hends : endsNumber digits rest = true) :
    readNumber? (digits ++ rest) = some (digits, rest) := by
  cases h with
  | plain hsign hmantissa =>
    obtain ⟨hmantissaEnds, hnone⟩ := (endsNumber_plain hsign hmantissa).1 hends
    rw [List.append_assoc, readNumber?_parts hsign hmantissa hmantissaEnds, readExponent_none hnone,
      List.append_nil]
  | scientific hsign hmantissa hexponent =>
    rw [endsNumber_scientific hexponent, Bool.not_eq_true'] at hends
    rw [List.append_assoc, List.append_assoc,
      readNumber?_parts hsign hmantissa (hexponent.endsMantissa _ rest), hexponent.read hends]

/-- **What was read as a number is a numeral that ends before the text behind it.** -/
theorem numeral_of_readNumber? {t : Text} (h : readNumber? t = some (digits, rest)) :
    Numeral digits ∧ endsNumber digits rest = true := by
  unfold readNumber? at h
  simp only at h
  split at h
  · cases h
  · next mantissa after hread =>
    obtain ⟨rfl, rfl⟩ := Prod.mk.inj (Option.some.inj h)
    have hsign := isSign_readSign t
    obtain ⟨hmantissa, hends⟩ := isMantissa_of_readMantissa? hread
    rcases eq_or_ne (readExponent after).1 [] with hnone | hsome
    · rw [readExponent_none hnone, List.append_nil]
      exact ⟨.plain hsign hmantissa, (endsNumber_plain hsign hmantissa).2 ⟨hends, hnone⟩⟩
    · obtain ⟨hexponent, hdigit⟩ := isExponent_readExponent hsome
      refine ⟨.scientific hsign hmantissa hexponent, ?_⟩
      rw [endsNumber_scientific hexponent, hdigit]
      rfl

/-- A numeral starts with a digit or a point, or with a sign before one of them. -/
theorem Numeral.exists_cons (h : Numeral digits) : ∃ sign c cs, digits = sign ++ c :: cs
    ∧ IsSign sign ∧ (c.isDigit = true ∨ c = '.') := by
  cases h with
  | plain hsign hmantissa =>
    obtain ⟨c, cs, rfl, hc⟩ := hmantissa.exists_cons
    exact ⟨_, c, cs, rfl, hsign, hc⟩
  | scientific hsign hmantissa =>
    obtain ⟨c, cs, rfl, hc⟩ := hmantissa.exists_cons
    exact ⟨_, c, _, List.append_assoc _ _ _, hsign, hc⟩

theorem Numeral.exists_head (h : Numeral digits) : ∃ c cs, digits = c :: cs
    ∧ (c.isDigit = true ∨ c = '-' ∨ c = '+' ∨ c = '.') := by
  obtain ⟨sign, c, cs, rfl, hsign, hc⟩ := h.exists_cons
  cases hsign with
  | plus => exact ⟨'+', _, rfl, by simp⟩
  | minus => exact ⟨'-', _, rfl, by simp⟩
  | none => exact ⟨c, cs, rfl, hc.imp_right fun hc => Or.inr (Or.inr hc)⟩

/-- A numeral does not start like an identifier or like the end of a markup comment. -/
theorem Numeral.not_startsIdent (h : Numeral digits) (x : Text) :
    startsIdent (digits ++ x) = false ∧ ∀ c u, digits ++ x = c :: u →
      ¬ (c = '-' ∧ Text.startsWith u ['-', '>'] = true) := by
  -- behind the sign stands a digit or a point, which neither of the two goes on with
  obtain ⟨sign, c, cs, rfl, hsign, hc⟩ := h.exists_cons
  have hother : isNameStart c = false ∧ c ≠ '-' ∧ c ≠ '\\' := by
    rcases hc with hc | rfl
    · refine ⟨isNameStart_of_isDigit hc, (not_sign_of_isDigit hc).2, ?_⟩
      rintro rfl
      cases hc
    · decide
  obtain ⟨hstart, hhyphen, hbackslash⟩ := hother
  have hescape : ∀ y, startsEscape (c :: y) = false := fun y => startsEscape_eq_false y hbackslash
  cases hsign with
  | plus =>
    refine ⟨by simp [startsIdent, startsEscape, show isNameStart '+' = false from rfl], ?_⟩
    rintro c' u heq ⟨rfl, -⟩
    simp at heq
  | minus =>
    refine ⟨?_, ?_⟩
    · simp [startsIdent, hstart, hhyphen, hescape,
        startsEscape_eq_false _ (show '-' ≠ '\\' by decide), show isNameStart '-' = false from rfl]
    · rintro c' u heq ⟨rfl, harrow⟩
      simp only [List.cons_append, List.nil_append, List.cons.injEq, true_and] at heq
      rw [← heq] at harrow
      simp [Text.startsWith, hhyphen.symm] at harrow
  | none =>
    refine ⟨by simp [startsIdent, hstart, hhyphen, hescape], ?_⟩
    rintro c' u heq ⟨rfl, -⟩
    simp [hhyphen] at heq

end Numbers

end NestedSheet.Component
