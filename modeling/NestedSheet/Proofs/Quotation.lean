import NestedSheet.Text.Span

/-!
# Complete quoted strings

Two scanners of this library pass over quoted strings: interpolation, for which a
quote that nothing closes is a character like any other, and the reading of
selectors, for which such a quote takes in the rest of the line.  What a complete
string is they agree on, and it is said here once, as a grammar.

What stands outside of the strings of a text is told by the ends of the text that
one comes to from the left (`Reached`), passing each string as a whole.  The two
scanners differ in the characters that are passed one by one.

Main results:

* `body_inside`, `inside_body` — the inside of a string is what `body` takes off.
* `completeSpan?_eq_some_iff` — the scanner finds the strings of the grammar.
* `quoted_cases` — after a quote there is a complete string, or none ends.
-/

namespace NestedSheet.Text

/-! ## The grammar -/

/-- What may stand between two quotes `q`: characters other than the quote and the
backslash, and backslashes each with the character that it escapes. -/
inductive Inside (q : Char) : Text → Prop
  | nil : Inside q []
  | char {c : Char} {t : Text} : c ≠ q → c ≠ '\\' → Inside q t → Inside q (c :: t)
  | escape {c : Char} {t : Text} : Inside q t → Inside q ('\\' :: c :: t)

/-- A complete quoted string. -/
inductive Quotation : Text → Prop
  | intro {q : Char} {inside : Text} :
    isQuote q = true → Inside q inside → Quotation (q :: (inside ++ [q]))

/-- The text starts with a complete string. -/
def StartsQuotation (t : Text) : Prop :=
  ∃ span rest, Quotation span ∧ t = span ++ rest

theorem isQuote_backslash {q : Char} (h : isQuote q = true) : q ≠ '\\' := by
  rintro rfl
  cases h

theorem Quotation.exists_cons {span : Text} (h : Quotation span) :
    ∃ q inside, isQuote q = true ∧ Inside q inside ∧ span = q :: (inside ++ [q]) := by
  cases h with
  | intro hq hinside => exact ⟨_, _, hq, hinside, rfl⟩

/-! ## What the scanner takes off -/

theorem inside_body (q : Char) (t : Text) : Inside q (body q t).1 := by
  fun_induction body q t with
  | case1 => exact Inside.nil
  | case2 c cs r ih => exact Inside.escape ih
  | case3 c cs _ _ => exact Inside.nil
  | case4 c cs _ h r ih =>
    rw [not_or] at h
    exact Inside.char h.1 h.2 ih

/-- The scanner stops at the quote that closes the string. -/
theorem body_inside {q : Char} (hq : q ≠ '\\') {inside : Text} (h : Inside q inside) (rest : Text) :
    body q (inside ++ q :: rest) = (inside, q :: rest) := by
  induction h with
  | nil =>
    -- the quote that closes the string is no backslash, so it escapes nothing
    rw [List.nil_append, body]
    · rw [if_pos (Or.inl rfl)]
    · intro c cs hc
      exact absurd hc hq
  | @char c t hcq hc _ ih =>
    rw [List.cons_append, body]
    · rw [if_neg (by simp [hcq, hc]), ih]
    · intro d ds hd
      exact absurd hd hc
  | escape _ ih => rw [List.cons_append, List.cons_append, body, ih]

/-- Where the scanner stops: at the end, at the quote, or at a backslash that has
nothing to escape. -/
theorem body_rest (q : Char) (t : Text) :
    (body q t).2 = [] ∨ (∃ rest, (body q t).2 = q :: rest) ∨ (body q t).2 = ['\\'] := by
  fun_induction body q t with
  | case1 => exact Or.inl rfl
  | case2 c cs r ih => exact ih
  | case3 c cs hescape h =>
    rcases h with rfl | rfl
    · exact Or.inr (Or.inl ⟨cs, rfl⟩)
    · -- a character after the backslash would be escaped by it
      cases cs with
      | nil => exact Or.inr (Or.inr rfl)
      | cons d ds => exact (hescape d ds rfl rfl).elim
  | case4 c cs _ _ r ih => exact ih

/-- The scanner finds the string of the grammar that a text starts with. -/
theorem completeSpan?_eq_some_iff {t span rest : Text} :
    completeSpan? t = some (span, rest) ↔ Quotation span ∧ t = span ++ rest := by
  constructor
  · intro h
    refine ⟨?_, (completeSpan?_append h).symm⟩
    cases t with
    | nil => cases h
    | cons q cs =>
      -- a quote, its inside, and the same quote again; the scanner gives up on all else
      have hinside := inside_body q cs
      rw [completeSpan?] at h
      split at h
      · next hq =>
        split at h
        · next inside c after hbody =>
          rw [hbody] at hinside
          split at h
          · obtain ⟨rfl, -⟩ := Prod.mk.inj (Option.some.inj h)
            exact Quotation.intro hq hinside
          · cases h
        · cases h
      · cases h
  · rintro ⟨hspan, rfl⟩
    obtain ⟨q, inside, hq, hinside, rfl⟩ := hspan.exists_cons
    have hbody := body_inside (isQuote_backslash hq) hinside rest
    rw [List.cons_append, List.append_assoc, List.singleton_append, completeSpan?, if_pos hq, hbody]
    simp

theorem completeSpan?_eq_none_iff {t : Text} : completeSpan? t = none ↔ ¬ StartsQuotation t := by
  rw [Option.eq_none_iff_forall_ne_some]
  constructor
  · rintro h ⟨span, rest, hspan⟩
    exact h (span, rest) (completeSpan?_eq_some_iff.2 hspan)
  · rintro h ⟨span, rest⟩ heq
    exact h ⟨span, rest, completeSpan?_eq_some_iff.1 heq⟩

/-- A text starts with one complete string at most. -/
theorem Quotation.unique {span span' rest rest' : Text} (h : Quotation span)
    (h' : Quotation span') (heq : span ++ rest = span' ++ rest') :
    span = span' ∧ rest = rest' := by
  have hfound : completeSpan? (span ++ rest) = some (span, rest) :=
    completeSpan?_eq_some_iff.2 ⟨h, rfl⟩
  have hfound' : completeSpan? (span ++ rest) = some (span', rest') :=
    completeSpan?_eq_some_iff.2 ⟨h', heq⟩
  rw [hfound] at hfound'
  exact Prod.mk.inj (Option.some.inj hfound')

/-- After a quote there is a complete string, or the text is used up without a quote
that closes it. -/
theorem quoted_cases {q : Char} (hq : isQuote q = true) (cs : Text) :
    (∃ inside rest, Inside q inside ∧ cs = inside ++ q :: rest ∧ body q cs = (inside, q :: rest))
    ∨ ((body q cs).2.drop 1 = [] ∧ (body q cs).2.take 1 ≠ [q] ∧ ¬ StartsQuotation (q :: cs)) := by
  have hinside := inside_body q cs
  have happend := body_append q cs
  -- a complete string would have stopped the scanner at its closing quote
  have hstarts : StartsQuotation (q :: cs) → ∃ rest, (body q cs).2 = q :: rest := by
    rintro ⟨span, rest, hspan, heq⟩
    obtain ⟨q', inside, hq', hinside', rfl⟩ := hspan.exists_cons
    rw [List.cons_append, List.append_assoc, List.singleton_append] at heq
    obtain ⟨rfl, rfl⟩ := List.cons.inj heq
    exact ⟨rest, by rw [body_inside (isQuote_backslash hq) hinside']⟩
  -- the scanner stops at the end of the text, at the quote, or at a last backslash
  rcases body_rest q cs with hrest | ⟨rest, hrest⟩ | hrest
  · refine Or.inr ⟨by rw [hrest]; rfl, by rw [hrest]; exact nofun, fun h => ?_⟩
    obtain ⟨rest, hcons⟩ := hstarts h
    rw [hrest] at hcons
    cases hcons
  · refine Or.inl ⟨(body q cs).1, rest, hinside, ?_, ?_⟩
    · rw [← hrest, happend]
    · rw [← hrest]
  · have hne : q ≠ '\\' := isQuote_backslash hq
    refine Or.inr ⟨by rw [hrest]; rfl, ?_, fun h => ?_⟩
    · rw [hrest]
      simpa using hne.symm
    · obtain ⟨rest, hcons⟩ := hstarts h
      rw [hrest] at hcons
      exact hne (List.cons.inj hcons).1.symm

/-! ## Outside of strings -/

/-- `Reached single t u` says that one comes from `t` to its end `u` from the left,
passing complete strings as a whole and, where `single` allows it, one character at
a time. -/
inductive Reached (single : Text → Prop) : Text → Text → Prop
  | here (t : Text) : Reached single t t
  | string {span rest u : Text} :
    Quotation span → Reached single rest u → Reached single (span ++ rest) u
  | character {c : Char} {cs u : Text} :
    single (c :: cs) → Reached single cs u → Reached single (c :: cs) u

/-- The end `u` of the text `t` starts outside of the complete strings of `t`; a
quote that starts none of them is passed like any other character. -/
def OutsideStrings : Text → Text → Prop :=
  Reached fun t => ¬ StartsQuotation t

/-- The end `u` of the text `t` starts outside of the quotes of `t`; nothing is
outside behind a quote that is not closed. -/
def OutsideQuotes : Text → Text → Prop :=
  Reached fun t => t.head?.all (fun c => !isQuote c) = true

namespace Reached

variable {single : Text → Prop}

theorem length_le {t u : Text} (h : Reached single t u) : u.length ≤ t.length := by
  induction h with
  | here t => exact Nat.le_refl _
  | string _ _ ih =>
    rw [List.length_append]
    omega
  | character _ _ ih =>
    rw [List.length_cons]
    omega

/-- A complete string is passed as a whole, if its characters are not passed one by
one. -/
theorem string_iff {span rest u : Text} (hspan : Quotation span)
    (hsingle : ¬ single (span ++ rest)) :
    Reached single (span ++ rest) u ↔ u = span ++ rest ∨ Reached single rest u := by
  constructor
  · intro h
    generalize htext : span ++ rest = t at h hsingle
    cases h with
    | here => exact Or.inl rfl
    | string hspan' hreached =>
      -- there is no other string that the text starts with
      obtain ⟨-, rfl⟩ := hspan.unique hspan' htext
      exact Or.inr hreached
    | character hfirst => exact absurd hfirst hsingle
  · rintro (rfl | h)
    · exact here _
    · exact string hspan h

/-- No end that starts with another character than a quote starts with a string. -/
theorem quotation_iff {span rest : Text} (hspan : Quotation span)
    (hsingle : ¬ single (span ++ rest)) {c : Char} {cs : Text} (hc : isQuote c = false) :
    Reached single (span ++ rest) (c :: cs) ↔ Reached single rest (c :: cs) := by
  rw [string_iff hspan hsingle, or_iff_right]
  obtain ⟨q, inside, hq, -, rfl⟩ := hspan.exists_cons
  intro heq
  obtain ⟨rfl, -⟩ := List.cons.inj heq
  rw [hq] at hc
  cases hc

/-- A character that starts no string is passed by itself. -/
theorem cons_iff {c : Char} {cs u : Text} (hc : ¬ StartsQuotation (c :: cs))
    (hsingle : single (c :: cs)) : Reached single (c :: cs) u ↔ u = c :: cs ∨ Reached single cs u := by
  constructor
  · intro h
    generalize htext : c :: cs = t at h
    cases h with
    | here => exact Or.inl rfl
    | string hspan _ => exact absurd ⟨_, _, hspan, htext⟩ hc
    | character _ hreached =>
      obtain ⟨-, rfl⟩ := List.cons.inj htext
      exact Or.inr hreached
  · rintro (rfl | h)
    · exact here _
    · exact character hsingle h

end Reached

theorem not_startsQuotation {c : Char} {cs : Text} (hc : isQuote c = false) :
    ¬ StartsQuotation (c :: cs) := by
  rintro ⟨span, rest, hspan, heq⟩
  obtain ⟨q, inside, hq, -, rfl⟩ := hspan.exists_cons
  obtain ⟨rfl, -⟩ := List.cons.inj heq
  rw [hq] at hc
  cases hc

/-- Characters that are no quotes and other than the one looked for do not matter. -/
theorem reached_append {single : Text → Prop} (hsingle : ∀ c cs, isQuote c = false → single (c :: cs))
    {t : Text} {c : Char} (ht : ∀ d ∈ t, isQuote d = false ∧ d ≠ c) (rest cs : Text) :
    Reached single (t ++ rest) (c :: cs) ↔ Reached single rest (c :: cs) := by
  induction t with
  | nil => exact Iff.rfl
  | cons d ds ih =>
    obtain ⟨⟨hquote, hne⟩, hds⟩ := List.forall_mem_cons.1 ht
    rw [List.cons_append, Reached.cons_iff (not_startsQuotation hquote) (hsingle d _ hquote), ih hds]
    constructor
    · rintro (heq | h)
      · exact absurd (List.cons.inj heq).1.symm hne
      · exact h
    · exact Or.inr

end NestedSheet.Text
