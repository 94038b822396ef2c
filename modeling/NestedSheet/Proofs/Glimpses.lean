import NestedSheet.Proofs.Endings

/-!
# What lexemes see behind them

A lexeme ends where the text behind it does not go on with it.  Not much of that text is
looked at, and many characters cannot be told from one another there: `Component.glimpse` is
what is seen of a text.  Two texts that look the same end the same lexemes
(`Lexeme.stops_of_glimpse`).  In particular a semicolon looks like a closing bracket.
-/

namespace NestedSheet

open Component

/-! ## What a lexeme sees -/

namespace Component

/-- A character that a lexeme looks past, to see whether what starts there goes on with
it: a sign, a point, an exponent, or the start of a markup comment. -/
def looksPast (c : Char) : Bool :=
  c == '-' || c == '+' || c == '.' || c == 'e' || c == 'E' || c == '!'

/-- What a lexeme sees of the text behind it.  The characters that end every lexeme look
like the end of the text, and so does a backslash before a newline. -/
def glimpse : Text → Text
  | [] => []
  | c :: cs =>
    if isSpace c || c == ';' || c == '}' || c == '/' then []
    else if Text.isQuote c then ['"']
    else if c = '\\' then if cs.head? = some '\n' then [] else ['\\']
    else if c = 'U' then ['u']
    else if looksPast c then c :: glimpse cs
    else [c]

theorem glimpse_stop {c : Char}
    (hc : (isSpace c || c == ';' || c == '}' || c == '/') = true) (cs : Text) :
    glimpse (c :: cs) = [] := by
  rw [glimpse, if_pos hc]

theorem glimpse_past {c : Char} (hc : looksPast c = true) (cs : Text) :
    glimpse (c :: cs) = c :: glimpse cs := by
  simp only [looksPast, Bool.or_eq_true, beq_iff_eq] at hc
  rcases hc with ((((rfl | rfl) | rfl) | rfl) | rfl) | rfl <;> rw [glimpse] <;> rfl

theorem eq_of_glimpse {α : Type} {f : Text → α} (hf : ∀ t, f (glimpse t) = f t) {t u : Text}
    (h : glimpse t = glimpse u) : f t = f u := by
  rw [← hf t, h, hf u]

/-- The characters that a lexeme takes for other ones: those that end every lexeme, quotes,
and the backslash. -/
def opaques : Text := [' ', '\n', '\t', ';', '}', '/', '"', '\'', '\\']

/-- A test of the first character that takes none of those is passed by what is seen of a
text just if it is passed by the text. -/
theorem any_glimpse {p : Char → Bool} (hnone : opaques.any p = false) (hu : p 'u' = p 'U')
    (t : Text) : (glimpse t).head?.any p = t.head?.any p := by
  rw [List.any_eq_false] at hnone
  have hfalse : ∀ c ∈ opaques, p c = false := fun c hc => Bool.eq_false_iff.2 (hnone c hc)
  cases t with
  | nil => rfl
  | cons c cs =>
    rw [List.head?_cons, Option.any_some, glimpse]
    split_ifs with hstop hquote hescape hline hcapital hpast
    · simp only [isSpace, Bool.or_eq_true, beq_iff_eq] at hstop
      refine (hfalse c ?_).symm
      rcases hstop with (((((rfl | rfl) | rfl) | rfl) | rfl) | rfl) <;> simp [opaques]
    · simp only [Text.isQuote, Bool.or_eq_true, beq_iff_eq] at hquote
      refine (hfalse '"' (by simp [opaques])).trans (hfalse c ?_).symm
      rcases hquote with rfl | rfl <;> simp [opaques]
    · exact (hfalse c (by simp [hescape, opaques])).symm
    · rw [hescape]
      rfl
    · rw [hcapital]
      exact hu
    · rfl
    · rfl

theorem head?_glimpse {c : Char} (hc : opaques.contains c = false) (hu : c ≠ 'u' ∧ c ≠ 'U')
    (t : Text) : ((glimpse t).head? = some c) = (t.head? = some c) := by
  have hany := @any_glimpse (· == c)
    (by simpa [List.any_beq'] using hc) (by simp [hu.1.symm, hu.2.symm]) t
  have hiff : ∀ u : Text, u.head?.any (· == c) = true ↔ u.head? = some c := by
    intro u
    cases u <;> simp
  rw [← hiff, ← hiff, hany]

theorem startsEscape_glimpse (t : Text) : startsEscape (glimpse t) = startsEscape t := by
  cases t with
  | nil => rfl
  | cons c cs =>
    rw [glimpse]
    split_ifs with hstop hquote hescape hline hcapital hpast
    · rw [startsEscape_eq_false cs]
      · rfl
      · rintro rfl
        simp [isSpace] at hstop
    · rw [startsEscape_eq_false cs]
      · rfl
      · rintro rfl
        simp [Text.isQuote] at hquote
    · obtain ⟨ds, rfl⟩ := List.head?_eq_some_iff.1 hline
      rw [hescape]
      rfl
    · rw [hescape]
      exact (startsEscape_iff.2 ⟨cs, rfl, hline⟩).symm
    · rw [startsEscape_eq_false cs hescape]
      rfl
    · rw [startsEscape_eq_false _ hescape, startsEscape_eq_false _ hescape]
    · rw [startsEscape_eq_false _ hescape, startsEscape_eq_false _ hescape]

theorem continuesName_glimpse (t : Text) : continuesName (glimpse t) = continuesName t := by
  rw [continuesName, continuesName, startsEscape_glimpse, any_glimpse rfl rfl]

/-- Behind a character that a lexeme looks past, it sees what it sees of the text there. -/
theorem past_glimpse {c : Char} (hc : looksPast c = true) {f : Text → Bool}
    (hf : ∀ u, f (glimpse u) = f u) (t : Text) :
    ((glimpse t).head? == some c && f ((glimpse t).drop 1))
      = (t.head? == some c && f (t.drop 1)) := by
  have hhead : ((glimpse t).head? = some c) = (t.head? = some c) := by
    simp only [looksPast, Bool.or_eq_true, beq_iff_eq] at hc
    rcases hc with ((((rfl | rfl) | rfl) | rfl) | rfl) | rfl <;>
      exact head?_glimpse rfl (by decide) t
  by_cases h : t.head? = some c
  · obtain ⟨cs, rfl⟩ := List.head?_eq_some_iff.1 h
    rw [glimpse_past hc, List.drop_one, List.drop_one, List.tail_cons, List.tail_cons, hf]
    rfl
  · have h' : (glimpse t).head? ≠ some c := by rwa [ne_eq, hhead]
    rw [beq_eq_false_iff_ne.2 h, beq_eq_false_iff_ne.2 h', Bool.false_and, Bool.false_and]

theorem past_any_glimpse {c : Char} (hc : looksPast c = true) {p : Char → Bool}
    (hnone : opaques.any p = false) (hu : p 'u' = p 'U') (t : Text) :
    ((glimpse t).head? == some c && ((glimpse t).drop 1).head?.any p)
      = (t.head? == some c && (t.drop 1).head?.any p) :=
  past_glimpse hc (f := fun u => u.head?.any p) (any_glimpse hnone hu) t

theorem startsIdent_eq (t : Text) : startsIdent t
    = (t.head?.any isNameStart || startsEscape t || (t.head? == some '-'
      && ((t.drop 1).head?.any (fun d => isNameStart d || d == '-')
        || startsEscape (t.drop 1)))) := by
  cases t <;> rfl

theorem startsIdent_glimpse (t : Text) : startsIdent (glimpse t) = startsIdent t := by
  rw [startsIdent_eq, startsIdent_eq, startsEscape_glimpse, any_glimpse rfl rfl]
  refine congrArg (_ || ·) (past_glimpse rfl
    (f := fun u => u.head?.any (fun d => isNameStart d || d == '-') || startsEscape u)
    (fun u => ?_) t)
  simp only [startsEscape_glimpse]
  rw [any_glimpse rfl rfl]

/-! ## What is seen of numbers and ranges -/

theorem behindSign_glimpse {f : Text → Bool} (hf : ∀ u, f (glimpse u) = f u) (t : Text) :
    behindSign f (glimpse t) = behindSign f t := by
  rw [behindSign, behindSign, hf, past_glimpse rfl hf, past_glimpse rfl hf]

theorem startsDigits_glimpse (t : Text) : startsDigits (glimpse t) = startsDigits t := by
  rw [startsDigits, startsDigits, any_glimpse rfl rfl]
  exact congrArg (_ || ·) (past_any_glimpse rfl rfl rfl t)

theorem readNumber?_glimpse (t : Text) :
    (readNumber? (glimpse t)).isNone = (readNumber? t).isNone := by
  rw [readNumber?_isNone, readNumber?_isNone, behindSign_glimpse startsDigits_glimpse]

theorem startsExponent_glimpse (t : Text) : startsExponent (glimpse t) = startsExponent t := by
  have hf := @behindSign_glimpse (fun u => u.head?.any Char.isDigit) (any_glimpse rfl rfl)
  rw [startsExponent, startsExponent, past_glimpse rfl hf, past_glimpse rfl hf]

theorem endsNumber_glimpse (digits t : Text) :
    endsNumber digits (glimpse t) = endsNumber digits t := by
  rw [endsNumber, endsNumber, readExponent_isEmpty, readExponent_isEmpty, startsExponent_glimpse,
    any_glimpse rfl rfl, past_any_glimpse rfl rfl rfl]

theorem endsRange_glimpse (t : Text) : endsRange (glimpse t) = endsRange t := by
  rw [endsRange, endsRange, any_glimpse rfl rfl, past_any_glimpse rfl rfl rfl]

end Component

namespace Lexeme

theorem startsRange_glimpse (t : Text) : startsRange (glimpse t) = startsRange t := by
  have hrange : ∀ u, startsRange u
      = (u.head? == some '+' && (u.drop 1).head?.any (fun d => isHex d || d == '?')) := by
    intro u
    unfold startsRange
    split
    · rfl
    · next h =>
      cases u with
      | nil => rfl
      | cons c cs =>
        cases cs with
        | nil => simp
        | cons d ds =>
          have hc : c ≠ '+' := by
            rintro rfl
            exact h d ds rfl
          simp [hc]
  rw [hrange, hrange, past_any_glimpse rfl rfl rfl]

theorem startsMarkup_glimpse (t : Text) :
    Text.startsWith (glimpse t) ['!', '-', '-'] = Text.startsWith t ['!', '-', '-'] := by
  have hstart : ∀ (c : Char) (cs u : Text), Text.startsWith u (c :: cs)
      = (u.head? == some c && Text.startsWith (u.drop 1) cs) := by
    intro c cs u
    cases u with
    | nil => rfl
    | cons d ds => exact congrArg (· && _) (BEq.comm)
  have hstep : ∀ {c : Char} {cs : Text}, looksPast c = true →
      (∀ u, Text.startsWith (glimpse u) cs = Text.startsWith u cs) →
        ∀ u, Text.startsWith (glimpse u) (c :: cs) = Text.startsWith u (c :: cs) := by
    intro c cs hc hcs u
    rw [hstart, hstart]
    exact past_glimpse hc (f := fun u => Text.startsWith u cs) hcs u
  exact hstep rfl (hstep rfl (hstep rfl fun u => rfl)) t

/-! ## Nothing else matters -/

/-- What is seen of a text behind two others that look alike is alike. -/
theorem glimpse_append {t rest other : Text} (h : glimpse rest = glimpse other)
    (hline : '\\' ∈ t → (rest.head? = some '\n' ↔ other.head? = some '\n')) :
    glimpse (t ++ rest) = glimpse (t ++ other) := by
  induction t with
  | nil => exact h
  | cons c t ih =>
    have ht := ih fun hmem => hline (List.mem_cons_of_mem c hmem)
    rw [List.cons_append, List.cons_append, glimpse, glimpse, ht]
    have hhead : c = '\\' → ((t ++ rest).head? = some '\n' ↔ (t ++ other).head? = some '\n') := by
      rintro rfl
      cases t with
      | nil => exact hline List.mem_cons_self
      | cons d ds => exact Iff.rfl
    split_ifs <;> simp_all

theorem swallows_of_not_mem {t : Text} (h : '\\' ∉ t) : swallows t = false := by
  induction t with
  | nil => exact swallows_nil
  | cons c t ih =>
    rw [List.mem_cons, not_or] at h
    by_cases hc : isNameChar c = true
    · rw [swallows_char hc, ih h.2]
    · have hnone : continuesName (c :: (t ++ [' '])) = false := by
        simp [continuesName, Bool.eq_false_iff.2 hc, startsEscape_eq_false _ (Ne.symm h.1)]
      rw [swallows, List.cons_append, readName_stop hnone]
      rfl

section Glimpse

variable {text rest other : Text} (h : glimpse rest = glimpse other)

include h

theorem endsName_of_glimpse {t : Text}
    (hspace : '\\' ∈ t → rest.head?.any isSpace = other.head?.any isSpace)
    (hends : endsName t rest = true) : endsName t other = true := by
  rw [endsName, ← eq_of_glimpse continuesName_glimpse h]
  by_cases hmem : '\\' ∈ t
  · rwa [endsName, hspace hmem] at hends
  · rw [endsName, swallows_of_not_mem hmem] at hends
    rwa [swallows_of_not_mem hmem]

/-- The two texts have the same first character, where it is one that can be told from others. -/
theorem head_of_glimpse {d : Char} (hd : opaques.contains d = false) (hu : d ≠ 'u' ∧ d ≠ 'U') :
    other.head? = some d ↔ rest.head? = some d := by
  rw [← head?_glimpse hd hu, ← h, head?_glimpse hd hu]

theorem endsMark_of_glimpse {c : Char}
    (hline : c = '\\' → rest.head? = some '\n' → other.head? = some '\n')
    (hends : endsMark c rest = true) : endsMark c other = true := by
  have hnumber : ∀ d : Char, d ≠ '\\' → (readNumber? (d :: rest)).isNone
    = (readNumber? (d :: other)).isNone := by
    intro d hd
    refine eq_of_glimpse (f := fun t => (readNumber? t).isNone) readNumber?_glimpse ?_
    exact @glimpse_append [d] rest other h
      fun hmem => absurd (List.mem_singleton.1 hmem) (Ne.symm hd)
  have hident : startsIdent ('-' :: rest) = startsIdent ('-' :: other) :=
    eq_of_glimpse startsIdent_glimpse (@glimpse_append ['-'] rest other h (by simp))
  have hmarkup := eq_of_glimpse
    (f := fun t => Text.startsWith t ['!', '-', '-']) startsMarkup_glimpse h
  unfold endsMark at hends ⊢
  split_ifs at hends ⊢ with hat hhash hbackslash hhyphen hsign hslash hless hbar hequals
  · rwa [← eq_of_glimpse startsIdent_glimpse h]
  · rwa [← eq_of_glimpse continuesName_glimpse h]
  · rw [beq_iff_eq] at hends ⊢
    exact hline hbackslash hends
  · rwa [← hident, ← hnumber '-' (by decide)]
  · rwa [← hnumber c hbackslash]
  · rw [bne_iff_ne] at hends ⊢
    rwa [ne_eq, head_of_glimpse h rfl (by decide)]
  · rwa [← hmarkup]
  · rw [Bool.and_eq_true, bne_iff_ne, bne_iff_ne] at hends ⊢
    rwa [ne_eq, ne_eq, head_of_glimpse h rfl (by decide), head_of_glimpse h rfl (by decide)]
  · rw [bne_iff_ne] at hends ⊢
    rwa [ne_eq, head_of_glimpse h rfl (by decide)]
  · rfl

/-- **A lexeme ends before every text that looks like the one behind it.**  Whitespace, a
backslash and the end of an escape see a little more: whether a space comes. -/
theorem stops_of_glimpse {lexeme : Lexeme}
    (hquote : startsQuote (rest.dropWhile isSpace) = true
    → startsQuote (other.dropWhile isSpace) = true)
    (hspace : lexeme.isGap = true ∨ lexeme = literal ['\\'] ∨ '\\' ∈ text →
      rest.head?.any isSpace = other.head?.any isSpace
        ∧ (rest.head? = some '\n' ↔ other.head? = some '\n'))
    (hstops : stops text lexeme rest = true) : stops text lexeme other = true := by
  have hends : ∀ n, endsName (text.drop n) rest = true → endsName (text.drop n) other = true := by
    intro n hends
    exact endsName_of_glimpse h
      (fun hmem => (hspace (Or.inr (Or.inr (List.mem_of_mem_drop hmem)))).1) hends
  cases lexeme with
  | leaf l =>
    cases l with
    | whitespace t => rwa [stops, ← (hspace (Or.inl rfl)).1]
    | ident name =>
      have hbracket : (other.head? = some '(') ↔ _ := head_of_glimpse h rfl (by decide)
      have hmarkup : (other.head? = some '>') ↔ _ := head_of_glimpse h rfl (by decide)
      simp only [stops, Bool.and_eq_true, Bool.not_eq_true', Bool.and_eq_false_iff,
        bne_iff_ne, ne_eq, beq_eq_false_iff_ne, ← eq_of_glimpse startsRange_glimpse h,
        hbracket, hmarkup] at hstops ⊢
      exact ⟨⟨⟨hends 0 hstops.1.1.1, hstops.1.1.2⟩, hstops.1.2⟩, hstops.2⟩
    | atKeyword name => exact hends 1 hstops
    | hash name isIdentifier => exact hends 1 hstops
    | number digits =>
      rw [stops, ← eq_of_glimpse (endsNumber_glimpse digits) h,
        ← eq_of_glimpse startsIdent_glimpse h]
      simp only [stops, Bool.and_eq_true, bne_iff_ne] at hstops ⊢
      rwa [ne_eq, head_of_glimpse h rfl (by decide)]
    | dimension digits unit =>
      have hunit : glimpse (text.drop digits.length ++ rest)
        = glimpse (text.drop digits.length ++ other) :=
        glimpse_append h fun hmem => (hspace (Or.inr (Or.inr (List.mem_of_mem_drop hmem)))).2
      simp only [stops, Bool.and_eq_true] at hstops ⊢
      rw [← eq_of_glimpse (endsNumber_glimpse digits) hunit]
      exact ⟨hends _ hstops.1, hstops.2⟩
    | unicodeRange first last => rwa [stops, ← eq_of_glimpse endsRange_glimpse h]
    | literal t =>
      cases t with
      | nil => rfl
      | cons c cs =>
        cases cs with
        | nil =>
          refine endsMark_of_glimpse h (fun hc => ?_) hstops
          exact (hspace (Or.inr (Or.inl (by rw [hc, literal])))).2.1
        | cons d ds => rfl
    | badString => exact hstops
    | badUrl => exact hstops
    -- what brings its own end does not look at the text behind it
    | _ => rfl
  | function name =>
    rw [stops, Bool.or_eq_true] at hstops ⊢
    exact hstops.imp_right hquote
  | _ => rfl

end Glimpse

end Lexeme

end NestedSheet
