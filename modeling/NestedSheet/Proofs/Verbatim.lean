import NestedSheet.Proofs.Gathering
import NestedSheet.Proofs.Exchanges

/-!
# Lexemes without escapes

Printing keeps what a lexeme says and not how it was written.  But where no backslash is
written, most lexemes are printed just as they stand (`Lexeme.print_of_next`).  Strings, URLs and
unicode ranges are the exceptions: strings are put in double quotes, URLs lose the whitespace in
their brackets, and ranges lose leading zeros and question marks.  Units that look like an
exponent are printed with an escape.
-/

namespace NestedSheet

open Component

namespace Bracket

theorem opening_of_ofOpening? {c : Char} {bracket : Bracket} (h : ofOpening? c = some bracket) :
    bracket.opening = c := by
  unfold ofOpening? at h
  split_ifs at h with hcurly hsquare hround
  · rw [hcurly, ← Option.some.inj h]
    rfl
  · rw [hsquare, ← Option.some.inj h]
    rfl
  · rw [hround, ← Option.some.inj h]
    rfl

theorem closing_of_ofClosing? {c : Char} {bracket : Bracket} (h : ofClosing? c = some bracket) :
    bracket.closing = c := by
  unfold ofClosing? at h
  split_ifs at h with hcurly hsquare hround
  · rw [hcurly, ← Option.some.inj h]
    rfl
  · rw [hsquare, ← Option.some.inj h]
    rfl
  · rw [hround, ← Option.some.inj h]
    rfl

end Bracket

namespace Component

/-! ## Names without escapes -/

/-- A name without a backslash is what its text says. -/
theorem readName_plain {t rest name : Text} (h : readName (t ++ rest) = (name, rest))
    (ht : '\\' ∉ t) :
    name = t ∧ ∀ c ∈ t, isNameChar c = true := by
  induction t generalizing name with
  | nil =>
    have hstop := continuesName_readName rest
    rw [List.nil_append] at h
    rw [h] at hstop
    rw [readName_stop hstop] at h
    exact ⟨(Prod.mk.inj h).1.symm, List.forall_mem_nil _⟩
  | cons c t ih =>
    rw [List.mem_cons, not_or] at ht
    by_cases hc : isNameChar c = true
    · rw [List.cons_append, readName_char hc] at h
      obtain ⟨rfl, hrest⟩ := Prod.mk.inj h
      obtain ⟨hname, hchars⟩ := ih (Prod.ext rfl hrest) ht.2
      exact ⟨congrArg (c :: ·) hname, List.forall_mem_cons.2 ⟨hc, hchars⟩⟩
    · -- a name that does not start cannot leave less than its text
      have hstop : continuesName (c :: (t ++ rest)) = false := by
        simp [continuesName, Bool.eq_false_iff.2 hc, startsEscape_eq_false _ (Ne.symm ht.1)]
      rw [List.cons_append, readName_stop hstop] at h
      have hlength := congrArg List.length (Prod.mk.inj h).2
      simp only [List.length_cons, List.length_append] at hlength
      omega

theorem printName_plain {t : Text} (h : ∀ c ∈ t, isNameChar c = true) : printName t = t := by
  induction t with
  | nil => rfl
  | cons c t ih =>
    obtain ⟨hc, ht⟩ := List.forall_mem_cons.1 h
    rw [printName, List.flatMap_cons, if_pos hc]
    exact congrArg (c :: ·) (ih ht)

/-- An identifier starts with the start of a name, perhaps behind one or two hyphens. -/
theorem startsIdent_plain {c : Char} {cs : Text} (h : startsIdent (c :: cs) = true) (hc : c ≠ '\\')
    (hcs : startsEscape cs = false) :
    isNameStart c = true ∨ c = '-' ∧ cs.head?.any (fun d => isNameStart d || d == '-') = true := by
  simpa [startsIdent, startsEscape_eq_false cs hc, hcs] using h

/-- An identifier without a backslash is printed as it stands. -/
theorem printIdent_plain {t rest : Text} (h : startsIdent (t ++ rest) = true)
    (hrest : continuesName rest = false) (ht : '\\' ∉ t) (hchars : ∀ c ∈ t, isNameChar c = true) :
    printIdent t = t := by
  have hescape : ∀ {cs : Text}, '\\' ∉ cs → startsEscape (cs ++ rest) = false := by
    intro cs hcs
    cases cs with
    | nil => exact (Bool.or_eq_false_iff.1 hrest).2
    | cons d ds => exact startsEscape_eq_false _ fun hd => hcs (by simp [hd])
  unfold printIdent
  split
  · rfl
  · -- a hyphen by itself starts no identifier
    rcases startsIdent_plain h (by decide) (hescape List.not_mem_nil) with hstart | ⟨-, hnext⟩
    · cases hstart
    · cases rest with
      | nil => cases hnext
      | cons d ds =>
        simp only [continuesName, isNameChar, List.head?_cons, Option.any_some,
          Bool.or_eq_false_iff] at hrest
        simp [hrest] at hnext
  · next cs => rw [printName_plain fun c hc => hchars c (by simp [hc])]
  · -- what is behind one hyphen is the start of a name, since it is no second hyphen
    next _ c cs hne =>
    simp only [List.mem_cons, not_or] at ht
    have hc : isNameStart c = true := by
      rcases startsIdent_plain h (by decide) (hescape (by simp [ht])) with hstart | ⟨-, hnext⟩
      · cases hstart
      · have hc : c ≠ '-' := hne
        simpa [hc] using hnext
    rw [printFirst, if_pos hc, printName_plain fun d hd => hchars d (by simp [hd])]
    rfl
  · -- and without a hyphen the first character is one
    next c cs hhyphen hhyphens hother =>
    simp only [List.mem_cons, not_or] at ht
    have hc : isNameStart c = true := by
      rcases startsIdent_plain h (Ne.symm ht.1) (hescape ht.2) with hstart | ⟨rfl, -⟩
      · exact hstart
      · cases cs with
        | nil => exact (hhyphen rfl rfl).elim
        | cons d ds => exact (hother d ds rfl rfl).elim
    rw [printFirst, if_pos hc, printName_plain fun d hd => hchars d (by simp [hd])]
    rfl

/-! ## URLs without escapes -/

/-- A character that a URL without quotes can hold as it is. -/
def isUrlChar (c : Char) : Bool :=
  c != ')' && !isSpace c && !breaksUrl c

/-- The body of a URL without a backslash is its value. -/
theorem UrlBody.eq_value {stop : Char} {body value : Text} (h : UrlBody stop body value)
    (hbody : '\\' ∉ body) : body = value ∧ ∀ c ∈ value, isUrlChar c = true := by
  induction h with
  | nil => exact ⟨rfl, List.forall_mem_nil _⟩
  | escape => exact absurd List.mem_cons_self hbody
  | @char c t value hclose hspace hbreaks _ _ ih =>
    obtain ⟨rfl, hchars⟩ := ih fun hmem => hbody (List.mem_cons_of_mem c hmem)
    refine ⟨rfl, List.forall_mem_cons.2 ⟨?_, hchars⟩⟩
    simp [isUrlChar, hclose, hspace, hbreaks]

/-- The value of a URL without a backslash is what stands before its end, the whitespace
there apart. -/
theorem readUrlValue_plain {s value rest : Text} (h : readUrlValue s = (value, .closed, rest)) :
    ∃ t, s = t ++ rest ∧ ('\\' ∉ t →
      ∃ spaces, t = value ++ (spaces ++ [')']) ∧ ∀ c ∈ value, isUrlChar c = true) := by
  obtain ⟨body, stop, after, rfl, hbody, hstop⟩ := exists_urlBody h nofun
  generalize hend : stop :: after = tail at hstop ⊢
  cases hstop with
  | @closed spaces =>
    refine ⟨body ++ (spaces ++ [')']), by simp, fun hmem => ?_⟩
    obtain ⟨rfl, hchars⟩ := hbody.eq_value fun hmem' => hmem (List.mem_append_left _ hmem')
    exact ⟨spaces, rfl, hchars⟩

/-- A URL of such characters is printed as it is. -/
theorem printUrl_plain {value : Text} (h : ∀ c ∈ value, isUrlChar c = true ∧ c ≠ '\\')
    (hnormal : ∀ c ∈ value, isNormal c = true) : printUrl value true
    = "url(".toList ++ (value ++ [')']) := by
  have hchar : ∀ c ∈ value, printUrlChar c = [c] := by
    intro c hc
    obtain ⟨hplain, hbackslash⟩ := h c hc
    have hnormal := hnormal c hc
    simp only [isUrlChar, isSpace, breaksUrl, isNormal, Bool.and_eq_true, Bool.not_eq_true',
      Bool.or_eq_false_iff, bne_iff_ne, beq_eq_false_iff_ne] at hplain hnormal
    obtain ⟨⟨hclosing, hspace⟩, hbreaks⟩ := hplain
    rw [printUrlChar, if_neg (by simp [hclosing, hbackslash, hspace, hbreaks]), if_neg hspace.2,
      controlEscape?,
      if_neg hspace.1.2, if_neg hnormal.1.1, if_neg hnormal.1.2]
    rfl
  have hvalue : value.flatMap printUrlChar = value := by
    rw [List.flatMap_congr hchar, List.flatMap_singleton']
  rw [printUrl, hvalue, List.append_assoc]
  rfl

end Component

namespace Lexeme

/-! ## Lexemes without escapes -/

/-- Is a lexeme of this kind printed as it stands, if no backslash is in it? -/
def isVerbatim : Lexeme → Bool
  | .leaf (.string _ _) => false
  | .leaf (.url _ _) => false
  | .leaf (.unicodeRange _ _) => false
  | .leaf (.dimension _ unit) => printUnit unit == unit
  | .leaf .badString => false
  | .leaf .badUrl => false
  | .comment _ => false
  | _ => true

theorem print_of_readName {t rest name : Text} (h : readName (t ++ rest) = (name, rest))
    (ht : '\\' ∉ t)
    (hident : startsIdent (t ++ rest) = true) : printIdent name = t ∧ name = t := by
  obtain ⟨rfl, hchars⟩ := readName_plain h ht
  have hrest := continuesName_readName (name ++ rest)
  rw [h] at hrest
  exact ⟨printIdent_plain hident hrest ht hchars, rfl⟩

theorem print_of_called {c : Char} {u rest : Text} {lexeme : Lexeme}
    (h : Called (c :: u ++ rest) lexeme rest) (hverbatim : lexeme.isVerbatim = true)
    (hescape : '\\' ∉ c :: u) (hident : startsIdent (c :: u ++ rest) = true) : lexeme.print
    = c :: u := by
  cases h with
  | ident hread _ => exact (print_of_readName hread hescape hident).1
  | function hread _ =>
    -- the bracket is the last character of the text
    obtain ⟨t, ht⟩ := readName_suffix (c :: u ++ rest)
    rw [hread, List.append_cons] at ht
    obtain htext : t ++ ['('] = c :: u := List.append_cancel_right ht
    rw [← htext] at hescape hident hread ⊢
    rw [List.append_assoc, List.singleton_append] at hident hread
    obtain ⟨hprint, -⟩ := print_of_readName hread
      (fun hmem => hescape (List.mem_append_left _ hmem)) hident
    exact congrArg (· ++ ['(']) hprint
  | url => cases hverbatim
  | badUrl => cases hverbatim

theorem print_of_measured {c : Char} {u digits s rest : Text} {lexeme : Lexeme}
    (hread : readNumber? (c :: u ++ rest) = some (digits, s)) (h : Measured digits s lexeme rest)
    (hverbatim : lexeme.isVerbatim = true) (hescape : '\\' ∉ c :: u) : lexeme.print = c :: u := by
  obtain ⟨t, rfl⟩ := h.suffix
  have happend := (readNumber?_append hread).1
  rw [← List.append_assoc] at happend
  obtain htext : digits ++ t = c :: u := List.append_cancel_right happend
  rw [← htext] at hescape ⊢
  generalize hafter : t ++ rest = after at h
  cases h with
  | dimension _ hname =>
    rw [← hafter] at hname
    obtain ⟨hunit, -⟩ := readName_plain hname fun hmem => hescape (List.mem_append_right _ hmem)
    exact congrArg (digits ++ ·) ((eq_of_beq hverbatim).trans hunit)
  | percentage =>
    obtain rfl : t = ['%'] := List.append_cancel_right hafter
    rfl
  | number =>
    obtain rfl : t = [] := List.append_left_eq_self.1 hafter
    exact (List.append_nil digits).symm

theorem print_of_punctuated {c : Char} {u rest : Text} {lexeme : Lexeme}
    (h : Punctuated c (u ++ rest) lexeme rest) (hverbatim : lexeme.isVerbatim = true)
    (hescape : '\\' ∉ u) : lexeme.print = c :: u := by
  generalize htext : u ++ rest = cs at h
  -- what is left behind a literal says what its text is
  have hfront : ∀ front : Text, cs = front ++ rest → u = front :=
    fun _ hcs => List.append_cancel_right (htext.trans hcs)
  cases h with
  | atKeyword hc hident hread =>
    rw [← htext] at hident hread
    rw [hc]
    exact congrArg ('@' :: ·) (print_of_readName hread hescape hident).1
  | hash hc _ hread =>
    rw [← htext] at hread ⊢
    rw [hc]
    cases hident : startsIdent (u ++ rest) with
    | true => exact congrArg ('#' :: ·) (print_of_readName hread hescape hident).1
    | false =>
      obtain ⟨hname, hchars⟩ := readName_plain hread hescape
      exact congrArg ('#' :: ·) ((congrArg printName hname).trans (printName_plain hchars))
  | string | openString | badString | comment => cases hverbatim
  | opening hc => rw [hfront [] rfl, print, Bracket.opening_of_ofOpening? hc]
  | closing hc => rw [hfront [] rfl, print, Bracket.closing_of_ofClosing? hc]
  | markup hc hcs =>
    rw [hfront ['!', '-', '-'] hcs, hc]
    rfl
  | bars hc hcs =>
    rw [hfront ['|'] hcs, hc]
    rfl
  | equals _ hcs =>
    rw [hfront ['='] hcs]
    rfl
  | char =>
    rw [hfront [] rfl]
    rfl

/-- **A lexeme without a backslash is printed as it stands**, strings, URLs, ranges and
some units apart. -/
theorem print_of_next {c : Char} {u rest : Text} {lexeme : Lexeme}
    (h : next c (u ++ rest) = (lexeme, rest))
    (hverbatim : lexeme.isVerbatim = true) (hescape : '\\' ∉ c :: u) : lexeme.print = c :: u := by
  generalize htext : u ++ rest = cs at h
  cases scanned_of_next h with
  | whitespace =>
    have hsplit := htext.trans (@List.takeWhile_append_dropWhile _ isSpace cs).symm
    exact congrArg (c :: ·) (List.append_cancel_right hsplit).symm
  | range => cases hverbatim
  | arrow hc hcs =>
    obtain rfl : u = ['-', '>'] := List.append_cancel_right (htext.trans hcs)
    rw [hc]
    rfl
  | name _ hident h =>
    rw [← htext] at hident h
    exact print_of_called h hverbatim hescape hident
  | number _ _ hread h =>
    rw [← htext] at hread
    exact print_of_measured hread h hverbatim hescape
  | punctuation _ _ _ h =>
    rw [← htext] at h
    exact print_of_punctuated h hverbatim fun hmem => hescape (List.mem_cons_of_mem c hmem)

/-- A URL is read behind its name and its bracket. -/
theorem next_eq_url {c : Char} {cs value rest : Text} {closed : Bool}
    (h : next c cs = (.leaf (.url value closed), rest)) : startsIdent (c :: cs) = true
      ∧ ∃ name after, readName (c :: cs) = (name, '(' :: after) ∧ isNamed "url" name = true
        ∧ readUrl after = (.url value closed, rest) := by
  cases scanned_of_next h with
  | name _ hident h =>
    cases h with
    | url hread hname _ hurl => exact ⟨hident, _, _, hread, hname, hurl⟩
  | number _ _ _ h => cases h
  | punctuation _ _ _ h => cases h

theorem toLower_eq_u {c : Char} (h : c.toLower = 'u') : c = 'u' ∨ c = 'U' := by
  unfold Char.toLower at h
  split at h
  · refine Or.inr (Char.ext ?_)
    have hval : c.val + ('a'.val - 'A'.val) = 'u'.val := congrArg Char.val h
    rw [← UInt32.add_left_inj, hval]
    rfl
  · exact Or.inl h

/-- A URL without a backslash starts with its name, and holds its value. -/
theorem url_of_next {c : Char} {u rest value : Text}
    (h : next c (u ++ rest) = (.leaf (.url value true), rest))
    (hescape : '\\' ∉ c :: u) : (c = 'u' ∨ c = 'U') ∧ (∀ d ∈ value, isUrlChar d = true)
      ∧ ∃ before after, c :: u = before ++ (value ++ after) := by
  obtain ⟨hident, name, after, hread, hname, hurl⟩ := next_eq_url h
  constructor
  · -- the name starts with the first character
    have hc : isNameChar c = true := by
      have hcontinues := continuesName_of_startsIdent hident
      rw [continuesName, startsEscape_eq_false _ fun hc => hescape (by simp [hc]),
        Bool.or_false] at hcontinues
      exact hcontinues
    rw [readName_char hc] at hread
    obtain ⟨rfl, -⟩ := Prod.mk.inj hread
    rw [isNamed, beq_iff_eq, List.map_cons] at hname
    exact toLower_eq_u (List.cons.inj hname).1
  · -- the value stands in the brackets, with whitespace around it
    obtain ⟨t, ht⟩ := readName_suffix (c :: (u ++ rest))
    rw [hread] at ht
    have hvalue : readUrlValue (after.dropWhile isSpace) = (value, .closed, rest) := by
      unfold readUrl at hurl
      split at hurl
      · next hclosed =>
        cases hurl
        exact hclosed
      · cases hurl
      · cases hurl
    obtain ⟨v, hv, hplain⟩ := readUrlValue_plain hvalue
    have hafter := @List.takeWhile_append_dropWhile _ isSpace after
    rw [hv, ← List.append_assoc] at hafter
    rw [← hafter, ← List.cons_append, ← List.append_assoc, ← List.cons_append] at ht
    have htext : t ++ '(' :: (after.takeWhile isSpace ++ v) = c :: u := List.append_cancel_right ht
    obtain ⟨spaces, rfl, hchars⟩ := hplain fun hmem => hescape (by rw [← htext]; simp [hmem])
    exact ⟨hchars, t ++ '(' :: after.takeWhile isSpace, spaces ++ [')'], by rw [← htext]; simp⟩

end Lexeme

end NestedSheet
