import NestedSheet.Proofs.Neighbours

/-!
# Where lexemes end

`Lexeme.stops` is a condition under which a lexeme is read again before another text.  Here
is the other direction: a lexeme that was read ends before the text behind it, wherever it
stands (`Lexeme.stops_of_next`).  Two kinds apart: a unicode range has at most six digits and
may end in front of a seventh, and nothing is said about faulty strings and URLs.
-/

namespace NestedSheet

open Component

namespace Component

/-! ## Names -/

/-- A name ends behind its last escape, unless the escape goes on with the text there. -/
theorem endsName_escape {e rest : Text} {c : Char} (hread : Escape e c)
    (hhead : e.head? ≠ some '\n')
    (hstops : Escape.Stops e rest) (hrest : continuesName rest = false) :
    endsName ('\\' :: e) rest = true := by
  by_cases hhex : ∀ d ∈ e, isHex d = true
  · simp [endsName, hrest, (hstops hhex).2]
  · -- then the escape brings its own end, and a further space is not part of it
    have hread' : readEscape (e ++ [' ']) = (c, [' ']) := hread.read fun hall => absurd hall hhex
    have hhead' : (e ++ [' ']).head? ≠ some '\n' := by
      obtain ⟨d, ds, rfl⟩ := List.exists_cons_of_ne_nil hread.ne_nil
      exact hhead
    have hswallows : swallows ('\\' :: e) = false := by
      rw [swallows, List.cons_append, readName_escape hhead', hread', readName_stop rfl]
      rfl
    simp [endsName, hrest, hswallows]

theorem NameBody.endsName {t rest name : Text} (h : NameBody rest t name)
    (hrest : continuesName rest = false) : endsName t rest = true := by
  induction h with
  | nil => simp [Component.endsName, hrest, swallows_nil]
  | char hc _ ih => rwa [Component.endsName, swallows_char hc]
  | @escape e t name c he hhead hstops _ ih =>
    rcases eq_or_ne t [] with rfl | hne
    · rw [List.append_nil]
      exact endsName_escape he hhead hstops hrest
    · have hinner : Escape.Stops e t := by simpa using hstops.append hne []
      rwa [Component.endsName, swallows_escape he hhead hne hinner]

/-- A name that was read ends before the text behind it. -/
theorem endsName_of_readName {t rest name : Text} (h : readName (t ++ rest) = (name, rest)) :
    endsName t rest = true := by
  have hstop := continuesName_readName (t ++ rest)
  rw [h] at hstop
  rcases eq_or_ne rest [] with rfl | hrest
  · simp [endsName, hstop]
  · obtain ⟨t', ht, hbody⟩ := exists_nameBody h hrest
    obtain rfl := List.append_cancel_right ht
    exact hbody.endsName hstop

end Component

namespace Lexeme

/-! ## Every lexeme -/

/-- Does a lexeme of this kind always end before the text behind it? -/
def isSteady : Lexeme → Bool
  | .leaf (.unicodeRange _ _) => false
  | .leaf .badString => false
  | .leaf .badUrl => false
  | _ => true

theorem stops_of_called {c : Char} {u rest : Text} {lexeme : Lexeme}
    (hother : Unclaimed c (u ++ rest)) (h : Called (c :: (u ++ rest)) lexeme rest)
    (hsteady : lexeme.isSteady = true) : stops (c :: u) lexeme rest = true := by
  cases h with
  | ident hread hbracket =>
    have hends : endsName (c :: u) rest = true := endsName_of_readName hread
    simp only [stops, Bool.and_eq_true, bne_iff_ne, Bool.not_eq_true', Bool.and_eq_false_iff,
      Bool.or_eq_false_iff, beq_eq_false_iff_ne]
    refine ⟨⟨⟨hends, hbracket⟩, ?_⟩, ?_⟩
    · -- it would have been the end of a markup comment
      refine or_iff_not_imp_left.2 fun hhyphens hhead => ?_
      rw [not_not] at hhyphens
      obtain ⟨rfl, rfl⟩ := List.cons.inj hhyphens
      obtain ⟨after, rfl⟩ := List.head?_eq_some_iff.1 hhead
      exact hother.arrow ⟨rfl, by simp [Text.startsWith]⟩
    · -- it would have been a range
      refine or_iff_not_imp_left.2 fun hletter => ?_
      rw [not_and_or, not_not, not_not] at hletter
      have hrange := hother.range
      cases hstart : startsRange rest with
      | false => rfl
      | true =>
        unfold startsRange at hstart
        split at hstart
        · rcases hletter with hletter | hletter <;>
          · obtain ⟨rfl, rfl⟩ := List.cons.inj hletter
            simp [readRange?, hstart] at hrange
        · cases hstart
  | function _ hquote => simpa [stops, imp_iff_not_or] using hquote
  | url => rfl
  | badUrl => cases hsteady

theorem stops_of_measured {c : Char} {u digits s rest : Text} {lexeme : Lexeme}
    (hread : readNumber? (c :: (u ++ rest)) = some (digits, s))
    (h : Measured digits s lexeme rest) :
    stops (c :: u) lexeme rest = true := by
  have hends := (numeral_of_readNumber? hread).2
  obtain ⟨t, rfl⟩ := h.suffix
  have happend := (readNumber?_append hread).1
  rw [← List.append_assoc, ← List.cons_append] at happend
  obtain htext : digits ++ t = c :: u := List.append_cancel_right happend
  rw [← htext]
  generalize hafter : t ++ rest = after at h hends
  cases h with
  | dimension _ hname =>
    rw [← hafter] at hname hends
    simp only [stops, List.drop_left, Bool.and_eq_true]
    exact ⟨endsName_of_readName hname, hends⟩
  | percentage => rfl
  | number hident hpercent => simp [stops, hends, hident, hpercent]

/-- A character that stands alone, and that neither a name nor a number starts with, ends before
the text behind it. -/
theorem StandsAlone.endsMark {c : Char} {rest : Text} (h : StandsAlone c rest)
    (hident : startsIdent (c :: rest) = false) (hnumber : readNumber? (c :: rest) = none) :
    endsMark c rest = true := by
  unfold Lexeme.endsMark
  split_ifs with hat hhash hbackslash hhyphen hsign hslash hless hbar hjoins
  · simp [h.keyword hat]
  · simp [h.hash hhash]
  · -- a backslash that starts no escape stands before the end of its line
    subst hbackslash
    cases hhead : startsEscape ('\\' :: rest) with
    | true => simp [startsIdent, hhead] at hident
    | false =>
      cases rest with
      | nil => cases hhead
      | cons d ds =>
        by_cases hd : d = '\n'
        · rw [hd]
          rfl
        · rw [startsEscape_iff.2 ⟨d :: ds, rfl, by simpa using hd⟩] at hhead
          cases hhead
  · rw [← hhyphen, hident, hnumber]
    rfl
  · rw [hnumber]
    rfl
  · simpa [hslash] using h.comment
  · simpa [hless] using h.markup
  · -- a bar joins with another one, and as some other marks do with an equals sign
    have hbars := h.bars
    have hequals := h.equals
    simp only [hbar, true_and] at hbars
    simp only [hbar, joinsEquals, beq_self_eq_true, Bool.or_true, Bool.true_or, true_and] at hequals
    simp [hbars, hequals]
  · simpa [hjoins] using h.equals
  · rfl

theorem stops_of_punctuated {c : Char} {u rest : Text} {lexeme : Lexeme}
    (h : Punctuated c (u ++ rest) lexeme rest) (hsteady : lexeme.isSteady = true)
    (hident : startsIdent (c :: (u ++ rest)) = false)
    (hnumber : readNumber? (c :: (u ++ rest)) = none) :
    stops (c :: u) lexeme rest = true := by
  generalize htext : u ++ rest = cs at h hident hnumber
  cases h with
  | atKeyword _ _ hread | hash _ _ hread =>
    rw [← htext] at hread
    exact endsName_of_readName hread
  | badString => cases hsteady
  | char halone => exact halone.endsMark hident hnumber
  | _ => rfl

/-- **A lexeme ends before the text behind it.** -/
theorem stops_of_next {c : Char} {u rest : Text} {lexeme : Lexeme}
    (h : next c (u ++ rest) = (lexeme, rest)) (hsteady : lexeme.isSteady = true) :
    stops (c :: u) lexeme rest = true := by
  generalize htext : u ++ rest = cs at h
  cases scanned_of_next h with
  | whitespace =>
    rw [stops, any_dropWhile]
    rfl
  | range => cases hsteady
  | arrow => rfl
  | name hother _ h =>
    rw [← htext] at hother h
    exact stops_of_called hother h hsteady
  | number _ _ hread h =>
    rw [← htext] at hread
    exact stops_of_measured hread h
  | punctuation _ hident hnumber h =>
    rw [← htext] at hident hnumber h
    exact stops_of_punctuated h hsteady hident hnumber

end Lexeme

end NestedSheet
