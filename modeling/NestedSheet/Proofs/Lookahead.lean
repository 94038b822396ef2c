import NestedSheet.Proofs.Numbers
import NestedSheet.Proofs.Scanning

/-!
# Lookahead

A lexeme is the longest that its text allows, so what it is depends on the text behind
it, but only on the first few characters there.  `Lexeme.stops` says, for each kind of
lexeme, when the text behind it does not go on with it.

The main result is `Lexeme.next_local`: what was read as a lexeme in one place is read as
the same lexeme in every place where it stops before the text behind it.  On the way
there the same is shown of unicode ranges, by what is the text of one (`exists_isRange`,
`IsRange.read`), and of each branch of the scanner.  `Lexeme.next_suffix` says that
what is left behind a lexeme is an end of the text.
-/

namespace NestedSheet

namespace Component

/-! ## Unicode ranges -/

/-- Does a unicode range end before the text? -/
def endsRange (rest : Text) : Bool :=
  !rest.head?.any (fun c => isHex c || c == '?')
    && !(rest.head? == some '-' && (rest.drop 1).head?.any isHex)

theorem hexRun_local {digits rest : Text} (hdigits : ∀ c ∈ digits, isHex c = true)
    (hlength : digits.length ≤ 6) (hrest : rest.head?.any isHex = false) :
    hexRun (digits ++ rest) = digits :=
  hexRun_append hdigits hlength (Or.inr hrest)

/-- A run of up to so many question marks. -/
theorem exists_marks (n : Nat) (t : Text) : ∃ marks rest, t = marks ++ rest
    ∧ (t.take n).takeWhile (· == '?') = marks ∧ (∀ c ∈ marks, c = '?') ∧ marks.length ≤ n := by
  refine ⟨(t.take n).takeWhile (· == '?'), t.drop ((t.take n).takeWhile (· == '?')).length,
    ?_, rfl, fun c hc => ?_, ?_⟩
  · exact (List.prefix_iff_eq_append.1
      ((List.takeWhile_prefix _).trans (List.take_prefix n t))).symm
  · simpa using List.mem_takeWhile_imp hc
  · exact (List.takeWhile_prefix _).length_le.trans (List.length_take_le n t)

theorem takeWhile_marks {n : Nat} {marks rest : Text} (hmarks : ∀ c ∈ marks, c = '?')
    (hlength : marks.length ≤ n) (hrest : rest.head? ≠ some '?') :
    ((marks ++ rest).take n).takeWhile (· == '?') = marks := by
  rw [List.take_append, List.take_of_length_le hlength,
    List.takeWhile_append_of_pos fun c hc => by simp [hmarks c hc]]
  cases rest with
  | nil => simp
  | cons c cs =>
    have hc : c ≠ '?' := by simpa using hrest
    cases n - marks.length <;> simp [hc]

/-- The text of a unicode range behind its `U+`, with its first and its last number: digits with
question marks behind them, each of which stands for any digit, two numbers with a hyphen
between them, or one number. -/
inductive IsRange : Text → Nat → Nat → Prop
  | marks {digits marks : Text} (hdigits : ∀ c ∈ digits, isHex c = true)
      (hmarks : ∀ c ∈ marks, c = '?') (hne : marks ≠ [])
      (hlength : digits.length + marks.length ≤ 6) :
      IsRange (digits ++ marks) (hexValue (digits ++ marks.map fun _ => '0'))
        (hexValue (digits ++ marks.map fun _ => 'F'))
  | pair {first last : Text} (hfirst : ∀ c ∈ first, isHex c = true) (hlength : first.length ≤ 6)
      (hlast : ∀ c ∈ last, isHex c = true) (hne : last ≠ []) (hlength' : last.length ≤ 6) :
      IsRange (first ++ '-' :: last) (hexValue first) (hexValue last)
  | single {digits : Text} (hdigits : ∀ c ∈ digits, isHex c = true) (hlength : digits.length ≤ 6) :
      IsRange digits (hexValue digits) (hexValue digits)

theorem head_of_endsRange {rest : Text} (h : endsRange rest = true) :
    rest.head?.any isHex = false ∧ rest.head? ≠ some '?' := by
  simp only [endsRange, Bool.and_eq_true, Bool.not_eq_true'] at h
  have hfirst := h.1
  cases rest with
  | nil => exact ⟨rfl, nofun⟩
  | cons c cs => simp_all

theorem takeWhile_marks_nil {rest : Text} (hrest : rest.head? ≠ some '?') (n : Nat) :
    (rest.take n).takeWhile (· == '?') = [] :=
  @takeWhile_marks n [] rest nofun (Nat.zero_le n) hrest

/-- A range is read before every text that does not go on with it. -/
theorem IsRange.read {u rest : Text} {first last : Nat} (h : IsRange u first last)
    (hends : endsRange rest = true) : readRange (u ++ rest) = (.unicodeRange first last, rest) := by
  obtain ⟨hstop, hmark⟩ := head_of_endsRange hends
  unfold readRange
  cases h with
  | @marks digits marks hdigits hmarks hne hlength =>
    have hstop' : (marks ++ rest).head?.any isHex = false := by
      obtain ⟨m, ms, rfl⟩ := List.exists_cons_of_ne_nil hne
      rw [hmarks m List.mem_cons_self]
      rfl
    rw [List.append_assoc, hexRun_local hdigits (by omega) hstop']
    simp only [List.drop_left, takeWhile_marks hmarks (Nat.le_sub_of_add_le' hlength) hmark, if_pos hne]
  | @pair first last hfirst hlength hlast hne hlength' =>
    rw [List.append_assoc, List.cons_append, hexRun_local hfirst hlength rfl]
    simp only [List.drop_left, takeWhile_marks_nil (show ('-' :: (last ++ rest)).head? ≠ some '?' by simp),
      ne_eq, not_true_eq_false, if_false, List.head?_cons, List.drop_one, List.tail_cons,
      hexRun_local hlast hlength' hstop, true_and]
    rw [if_pos hne]
  | single hdigits hlength =>
    rw [hexRun_local hdigits hlength hstop]
    simp only [List.drop_left, takeWhile_marks_nil hmark, ne_eq, not_true_eq_false, if_false]
    rw [if_neg]
    -- a hyphen with a digit behind it would go on with the range
    rintro ⟨hhyphen, hhex⟩
    simp only [endsRange, Bool.and_eq_true, Bool.not_eq_true', hhyphen, beq_self_eq_true,
      Bool.true_and] at hends
    exact hhex (@hexRun_local [] _ nofun (Nat.zero_le _) hends.2)

/-- What was read as a range is the text of one, and took the first character if that can start
a range. -/
theorem exists_isRange {t rest : Text} {leaf : Leaf} (h : readRange t = (leaf, rest)) :
    ∃ u first last, t = u ++ rest ∧ leaf = .unicodeRange first last ∧ IsRange u first last
      ∧ (t.head?.any (fun c => isHex c || c == '?') = true → u ≠ []) := by
  obtain ⟨digits, after, rfl, hdigits, hlength, hafter⟩ := exists_hexRun t
  have hrun : hexRun (digits ++ after) = digits := hexRun_append hdigits hlength hafter
  obtain ⟨marks, behind, rfl, hmarks, hall, hmax⟩ := exists_marks (6 - digits.length) after
  unfold readRange at h
  simp only [hrun, List.drop_left, hmarks] at h
  split at h
  · next hne =>
    obtain ⟨rfl, rfl⟩ := Prod.mk.inj h
    exact ⟨_, _, _, (List.append_assoc ..).symm, rfl, .marks hdigits hall hne (by omega),
      fun _ => by simp [hne]⟩
  next hnone =>
  obtain rfl : marks = [] := by simpa using hnone
  rw [List.nil_append] at h hafter ⊢
  split at h
  · next hsecond =>
    obtain ⟨rfl, rfl⟩ := Prod.mk.inj h
    obtain ⟨hhead, hne⟩ := hsecond
    obtain ⟨ds, rfl⟩ := List.head?_eq_some_iff.1 hhead
    obtain ⟨last, final, rfl, hlast, hlastlength, hfinal⟩ := exists_hexRun ds
    have hrun' : hexRun (last ++ final) = last := hexRun_append hlast hlastlength hfinal
    simp only [List.drop_one, List.tail_cons, hrun'] at hne ⊢
    exact ⟨_, _, _, by simp, rfl, .pair hdigits hlength hlast hne hlastlength, fun _ => by simp⟩
  · obtain ⟨rfl, rfl⟩ := Prod.mk.inj h
    refine ⟨_, _, _, rfl, rfl, .single hdigits hlength, fun hfirst => ?_⟩
    rintro rfl
    -- the first character would have been taken
    cases behind with
    | nil => cases hfirst
    | cons c cs =>
      have hhex : isHex c = false := by simpa using hafter
      have hmark : c ≠ '?' := by
        rintro rfl
        simp at hmarks
      simp [hhex, hmark] at hfirst

/-! ## What is left is an end of the text -/

theorem readEscape_suffix (t : Text) : (readEscape t).2 <:+ t := by
  rcases eq_or_ne t [] with rfl | ht
  · exact List.suffix_refl _
  · obtain ⟨e, he, -⟩ := exists_escape ht
    exact ⟨e, he.symm⟩

theorem readName_suffix (t : Text) : (readName t).2 <:+ t := by
  fun_induction readName t with
  | case1 => exact List.suffix_refl _
  | case2 c cs _ more ih => exact ih.trans (List.suffix_cons c cs)
  | case3 c cs _ _ more ih =>
    exact ih.trans ((readEscape_suffix cs).trans (List.suffix_cons c cs))
  | case4 c cs _ _ => exact List.suffix_refl _

theorem readString_suffix (quote : Char) (t : Text) : (readString quote t).2.2 <:+ t := by
  fun_induction readString quote t with
  | case1 => exact List.suffix_refl _
  | case2 cs => exact List.suffix_cons _ cs
  | case3 cs _ => exact List.suffix_refl _
  | case4 _ _ => exact List.nil_suffix
  | case5 ds _ _ ih => exact ih.trans ((List.suffix_cons _ ds).trans (List.suffix_cons _ _))
  | case6 d ds _ more _ _ ih =>
    exact ih.trans ((readEscape_suffix (d :: ds)).trans (List.suffix_cons _ _))
  | case7 c cs _ _ _ more ih => exact ih.trans (List.suffix_cons c cs)

theorem readUrlValue_suffix (t : Text) : (readUrlValue t).2.2 <:+ t := by
  fun_induction readUrlValue t with
  | case1 => exact List.suffix_refl _
  | case2 cs => exact List.suffix_cons _ cs
  | case3 c cs _ _ _ => exact List.nil_suffix
  | case4 c cs _ _ ds h =>
    exact (List.suffix_cons _ ds).trans ((h ▸ List.dropWhile_suffix _).trans (List.suffix_cons c cs))
  | case5 c cs _ _ d ds h _ =>
    exact (h ▸ List.dropWhile_suffix _).trans (List.suffix_cons c cs)
  | case6 c cs _ _ _ more ih =>
    exact ih.trans ((readEscape_suffix cs).trans (List.suffix_cons c cs))
  | case7 c cs => exact List.suffix_cons c cs
  | case8 c cs _ _ _ _ more ih => exact ih.trans (List.suffix_cons c cs)

theorem skipBrokenUrl_suffix (t : Text) : skipBrokenUrl t <:+ t := by
  fun_induction skipBrokenUrl t with
  | case1 => exact List.suffix_refl _
  | case2 cs ih => exact ih.trans ((List.suffix_cons _ cs).trans (List.suffix_cons _ _))
  | case3 cs => exact List.suffix_cons _ cs
  | case4 c cs _ _ ih => exact ih.trans (List.suffix_cons c cs)

theorem readUrl_suffix (t : Text) : (readUrl t).2 <:+ t := by
  have hvalue := (readUrlValue_suffix (t.dropWhile isSpace)).trans (List.dropWhile_suffix isSpace)
  unfold readUrl
  split
  · next h =>
    rw [h] at hvalue
    exact hvalue
  · next h =>
    rw [h] at hvalue
    exact hvalue
  · next rest h =>
    rw [h] at hvalue
    exact (skipBrokenUrl_suffix rest).trans hvalue

theorem readComment_suffix (t : Text) : (Lexeme.readComment t).2 <:+ t := by
  fun_induction Lexeme.readComment t with
  | case1 => exact List.suffix_refl _
  | case2 cs => exact (List.suffix_cons _ cs).trans (List.suffix_cons _ _)
  | case3 c cs _ more ih => exact ih.trans (List.suffix_cons c cs)

end Component

namespace Lexeme

open Component

theorem Called.suffix {t rest : Text} {lexeme : Lexeme} (h : Called t lexeme rest) : rest <:+ t := by
  have hname := readName_suffix t
  cases h with
  | ident hread _ =>
    rw [hread] at hname
    exact hname
  | function hread _ =>
    rw [hread] at hname
    exact (List.suffix_cons '(' rest).trans hname
  | @url _ after _ _ _ hread _ _ hurl | @badUrl _ after _ hread _ _ hurl =>
    have hleft := readUrl_suffix after
    rw [hurl] at hleft
    rw [hread] at hname
    exact hleft.trans ((List.suffix_cons '(' after).trans hname)

theorem Measured.suffix {digits after rest : Text} {lexeme : Lexeme}
    (h : Measured digits after lexeme rest) : rest <:+ after := by
  cases h with
  | dimension _ hread =>
    have hname := readName_suffix after
    rwa [hread] at hname
  | percentage => exact List.suffix_cons '%' rest
  | number => exact List.suffix_refl _

theorem Punctuated.suffix {c : Char} {cs rest : Text} {lexeme : Lexeme}
    (h : Punctuated c cs lexeme rest) : rest <:+ cs := by
  cases h with
  | atKeyword _ _ hread | hash _ _ hread =>
    have hname := readName_suffix cs
    rwa [hread] at hname
  | string _ hread | openString _ hread | badString _ hread =>
    have hstring := readString_suffix c cs
    rwa [hread] at hstring
  | opening | closing | char => exact List.suffix_refl _
  | @comment _ after _ _ hcs hread =>
    have hcomment := readComment_suffix after
    rw [hread] at hcomment
    exact hcs ▸ hcomment.trans (List.suffix_cons '*' after)
  | markup _ hcs => exact hcs ▸ ⟨['!', '-', '-'], rfl⟩
  | bars _ hcs | equals _ hcs => exact hcs ▸ List.suffix_cons _ rest

/-- What is left behind a lexeme is an end of the text. -/
theorem Scanned.suffix {c : Char} {cs rest : Text} {lexeme : Lexeme} (h : Scanned c cs lexeme rest) :
    rest <:+ cs := by
  cases h with
  | whitespace => exact List.dropWhile_suffix isSpace
  | range _ hcs _ hread =>
    obtain ⟨u, _, _, hu, -⟩ := exists_isRange hread
    exact hcs ▸ List.IsSuffix.trans ⟨u, hu.symm⟩ (List.suffix_cons _ _)
  | arrow _ hcs => exact hcs ▸ ⟨['-', '>'], rfl⟩
  | name _ hident h =>
    -- an identifier takes at least one character
    refine (List.suffix_cons_iff.1 h.suffix).resolve_left fun heq => ?_
    have hlength := identLike_length hident
    rw [h.identLike_eq, heq, List.length_cons] at hlength
    omega
  | number _ _ hread h =>
    obtain ⟨happend, hne⟩ := readNumber?_append hread
    obtain ⟨d, ds, rfl⟩ := List.exists_cons_of_ne_nil hne
    exact h.suffix.trans ⟨ds, (List.cons.inj happend).2⟩
  | punctuation _ _ _ h => exact h.suffix

theorem next_suffix (c : Char) (cs : Text) : (next c cs).2 <:+ cs :=
  (scanned_of_next rfl).suffix

/-! ## Lookahead -/

/-- Does a unicode range start behind its letter? -/
def startsRange : Text → Bool
  | '+' :: d :: _ => isHex d || d == '?'
  | _ => false

/-- Does a literal of one character end before the text? -/
def endsMark (c : Char) (rest : Text) : Bool :=
  if c = '@' then !startsIdent rest
  else if c = '#' then !continuesName rest
  else if c = '\\' then rest.head? == some '\n'
  else if c = '-' then !startsIdent ('-' :: rest) && (readNumber? ('-' :: rest)).isNone
  else if c = '+' ∨ c = '.' then (readNumber? (c :: rest)).isNone
  else if c = '/' then rest.head? != some '*'
  else if c = '<' then !Text.startsWith rest ['!', '-', '-']
  else if c = '|' then rest.head? != some '|' && rest.head? != some '='
  else if joinsEquals c then rest.head? != some '='
  else true

/-- Does a literal end before the text?  Only one of a single character may go on. -/
def endsLiteral (text rest : Text) : Bool :=
  match text with
  | [] => true
  | [c] => endsMark c rest
  | _ :: _ :: _ => true

/-- Does a lexeme with this text end before the text `rest`? -/
def stops (text : Text) (lexeme : Lexeme) (rest : Text) : Bool :=
  match lexeme with
  | .leaf (.whitespace _) => !rest.head?.any isSpace
  | .leaf (.ident _) =>
    -- identifiers that a bracket, a range or the end of a markup comment would take over
    endsName text rest && rest.head? != some '('
      && !(text == ['-', '-'] && rest.head? == some '>')
      && !((text == ['u'] || text == ['U']) && startsRange rest)
  | .leaf (.atKeyword _) => endsName (text.drop 1) rest
  | .leaf (.hash _ _) => endsName (text.drop 1) rest
  | .leaf (.number digits) => endsNumber digits rest && !startsIdent rest && rest.head? != some '%'
  | .leaf (.dimension digits _) =>
    endsName (text.drop digits.length) rest && endsNumber digits (text.drop digits.length ++ rest)
  | .leaf (.unicodeRange _ _) => endsRange rest
  | .leaf (.literal cs) => endsLiteral cs rest
  | .leaf .badString => false
  | .leaf .badUrl => false
  | .function name => !isNamed "url" name || startsQuote (rest.dropWhile isSpace)
  -- what brings its own end, or is only one character long
  | _ => true

theorem endsName_bracket (t rest : Text) : endsName t ('(' :: rest) = true := by
  simp only [endsName, continuesName, List.head?_cons, Option.any_some,
    startsEscape_eq_false rest (show '(' ≠ '\\' by decide)]
  rw [show isNameChar '(' = false from rfl, show isSpace '(' = false from rfl]
  simp

theorem readRange?_none {c : Char} {cs : Text}
    (h : (c = 'u' ∨ c = 'U') → startsRange cs = false) : readRange? c cs = none := by
  unfold readRange?
  split
  · next d ds =>
    refine if_neg fun ⟨hc, hd⟩ => ?_
    have hstart : (isHex d || d == '?') = false := h hc
    rw [hd] at hstart
    cases hstart
  · rfl

/-- Only the end of the text cuts a URL off. -/
theorem readUrlValue_endOfText {t value rest : Text} (h : readUrlValue t = (value, .endOfText, rest)) :
    rest = [] := by
  fun_induction readUrlValue t generalizing value rest with
  | case1 => cases h; rfl
  | case2 cs => cases h
  | case3 c cs _ _ _ => cases h; rfl
  | case4 c cs _ _ ds _ => cases h
  | case5 c cs _ _ d ds _ _ => cases h
  | case7 c cs => cases h
  -- an escape or a plain character: the rest of the value is the one cut off
  | case6 | case8 => rename_i ih; exact ih (Prod.ext rfl (Prod.mk.inj h).2)

/-- What is skipped of a broken URL, up to its closing bracket. -/
theorem skipBrokenUrl_local {rest : Text} (hrest : rest ≠ []) (s : Text) : skipBrokenUrl s = rest →
    ∃ t, s = t ++ rest ∧ t ≠ [] ∧ ∀ rest', skipBrokenUrl (t ++ rest') = rest' := by
  fun_induction skipBrokenUrl s with
  | case1 => exact fun h => absurd h.symm hrest
  | case2 cs ih =>
    intro h
    obtain ⟨t, rfl, -, hlocal⟩ := ih h
    exact ⟨'\\' :: ')' :: t, rfl, List.cons_ne_nil _ _, hlocal⟩
  | case3 cs =>
    rintro rfl
    exact ⟨[')'], rfl, List.cons_ne_nil _ _, fun rest' => rfl⟩
  | case4 c cs hescape hclose ih =>
    intro h
    obtain ⟨t, rfl, hne, hlocal⟩ := ih h
    refine ⟨c :: t, rfl, List.cons_ne_nil _ _, fun rest' => ?_⟩
    rw [List.cons_append, skipBrokenUrl]
    · exact hlocal rest'
    · obtain ⟨d, ds, rfl⟩ := List.exists_cons_of_ne_nil hne
      rintro ds' rfl heq
      obtain ⟨rfl, -⟩ := List.cons.inj heq
      exact hescape _ rfl rfl
    · exact hclose

/-- A URL that is not cut off is the same whatever stands behind it. -/
theorem readUrl_local {s rest : Text} {leaf : Leaf} (h : readUrl s = (leaf, rest)) (hrest : rest ≠ [])
    (hquote : startsQuote (s.dropWhile isSpace) = false) :
    ∃ t, s = t ++ rest ∧ ∀ rest', startsQuote ((t ++ rest').dropWhile isSpace) = false
      ∧ readUrl (t ++ rest') = (leaf, rest') := by
  obtain ⟨spaces, body, rfl, hspaces, hbody⟩ := exists_takeWhile isSpace s
  unfold readUrl at h
  rw [dropWhile_run hspaces hbody] at h hquote
  -- the first character behind the spaces is the same before every other text
  have hdrop : ∀ {c : Char} {cs x : Text}, body = c :: cs ++ x → ∀ y,
      (spaces ++ (c :: cs ++ y)).dropWhile isSpace = c :: cs ++ y := by
    rintro c cs x rfl y
    have hstop : (c :: cs ++ y).head?.any isSpace = false := hbody
    exact dropWhile_run hspaces hstop
  split at h
  · next value after hvalue =>
    obtain ⟨rfl, rfl⟩ := Prod.mk.inj h
    obtain ⟨t, rfl, hne, hlocal⟩ := readUrlValue_local hvalue nofun
    obtain ⟨c, cs, rfl⟩ := List.exists_cons_of_ne_nil hne
    refine ⟨spaces ++ c :: cs, by simp, fun rest' => ?_⟩
    rw [readUrl, List.append_assoc, hdrop rfl rest']
    exact ⟨hquote, by rw [hlocal rest' nofun]⟩
  · next hvalue =>
    obtain ⟨-, rfl⟩ := Prod.mk.inj h
    exact absurd (readUrlValue_endOfText hvalue) hrest
  · next value after hvalue =>
    -- what is skipped starts with the character that broke the value
    obtain ⟨rfl, hskip⟩ := Prod.mk.inj h
    obtain ⟨k, rfl, hk, hlocal⟩ := readUrlValue_local hvalue nofun
    obtain ⟨w, rfl, hw, hskip'⟩ := skipBrokenUrl_local hrest after hskip
    obtain ⟨c, cs, rfl⟩ := List.exists_cons_of_ne_nil hk
    obtain ⟨d, ds, rfl⟩ := List.exists_cons_of_ne_nil hw
    refine ⟨spaces ++ (c :: cs ++ d :: ds), by simp, fun rest' => ?_⟩
    rw [readUrl, List.append_assoc, List.append_assoc, hdrop rfl (d :: ds ++ rest')]
    exact ⟨hquote, by rw [hlocal (d :: ds ++ rest') fun _ => rfl]; simp only [hskip']⟩

/-- A letter that a plus follows is a name of its own, so no longer name starts like a range. -/
theorem startsRange_of_readName {c d : Char} {ds name left : Text} (hc : isNameChar c = true)
    (hread : readName (c :: d :: (ds ++ left)) = (name, left)) (x : Text) :
    startsRange (d :: (ds ++ x)) = false := by
  have hd : d ≠ '+' := by
    rintro rfl
    rw [readName_char hc, readName_stop rfl] at hread
    have hlength := congrArg List.length (Prod.mk.inj hread).2
    simp only [List.length_cons, List.length_append] at hlength
    omega
  unfold startsRange
  split
  · simp_all
  · rfl

/-- A name that does not start like the end of a markup comment starts like it nowhere, unless it
is made of its two hyphens. -/
theorem not_arrow_local {u left left' : Text} (harrow : ¬ Text.startsWith (u ++ left) ['-', '>'] = true)
    (hends : continuesName left' = false) (hmarkup : u = ['-'] → left'.head? ≠ some '>') :
    ¬ Text.startsWith (u ++ left') ['-', '>'] = true := by
  intro hstart
  match u, left' with
  | [], [] => cases hstart
  | [], d :: ds =>
    -- a further hyphen would go on with the name
    simp only [Text.startsWith, List.nil_append, List.isPrefixOf_cons_cons, Bool.and_eq_true,
      beq_iff_eq] at hstart
    rw [← hstart.1] at hends
    cases hends
  | [d], [] =>
    simp [Text.startsWith] at hstart
  | [d], e :: es =>
    simp only [Text.startsWith, List.singleton_append, List.isPrefixOf_cons_cons, Bool.and_eq_true,
      beq_iff_eq] at hstart
    obtain ⟨rfl, rfl, -⟩ := hstart
    exact hmarkup rfl rfl
  | d :: e :: es, _ => exact harrow (by simpa [Text.startsWith] using hstart)

/-- A name at the start of a text is the same, and is looked for, wherever the text
behind it does not go on with it. -/
theorem name_local {c : Char} {cs name left : Text} (hother : Unclaimed c cs)
    (hident : startsIdent (c :: cs) = true) (hread : readName (c :: cs) = (name, left))
    (hleft : left ≠ []) :
    ∃ u, cs = u ++ left ∧ ∀ left', endsName (c :: u) left' = true →
      (c :: u = ['-', '-'] → left'.head? ≠ some '>') →
      (c :: u = ['u'] ∨ c :: u = ['U'] → startsRange left' = false) →
        readName (c :: (u ++ left')) = (name, left') ∧ Unclaimed c (u ++ left')
          ∧ startsIdent (c :: (u ++ left')) = true := by
  obtain ⟨t, ht, hlocal⟩ := readName_local hread hleft
  have hne : t ≠ [] := by
    rw [ht] at hread hident
    exact ne_nil_of_readName hleft hread (continuesName_of_startsIdent hident)
  obtain ⟨c', u, rfl⟩ := List.exists_cons_of_ne_nil hne
  obtain ⟨rfl, hcs⟩ := List.cons.inj ht
  obtain rfl : cs = u ++ left := hcs
  refine ⟨u, rfl, fun left' hends hmarkup hrange =>
    ⟨hlocal left' hends, ⟨hother.space, readRange?_none fun hc => ?_, ?_⟩, ?_⟩⟩
  · cases u with
    | nil => exact hrange (hc.imp (congrArg ([·])) (congrArg ([·])))
    | cons d ds =>
      refine startsRange_of_readName ?_ hread left'
      rcases hc with rfl | rfl <;> rfl
  · rintro ⟨rfl, hstart⟩
    exact not_arrow_local (fun h => hother.arrow ⟨rfl, h⟩) (continuesName_of_endsName hends)
      (fun hu => hmarkup (by rw [hu])) hstart
  · exact (startsIdent_local hne hleft hread (continuesName_of_endsName hends)).trans hident

section Called

variable {c : Char} {cs name : Text} (hother : Unclaimed c cs) (hident : startsIdent (c :: cs) = true)

include hother hident

/-- A name ends before its bracket, whatever stands behind that. -/
theorem bracket_local {after : Text} (hread : readName (c :: cs) = (name, '(' :: after)) :
    ∃ u, cs = u ++ '(' :: after ∧ ∀ x, readName (c :: (u ++ '(' :: x)) = (name, '(' :: x)
      ∧ ∀ {lexeme rest}, Called (c :: (u ++ '(' :: x)) lexeme rest →
        Scanned c (u ++ '(' :: x) lexeme rest := by
  obtain ⟨u, rfl, hlocal⟩ := name_local hother hident hread (List.cons_ne_nil _ _)
  refine ⟨u, rfl, fun x => ?_⟩
  obtain ⟨hread', hother', hident'⟩ :=
    hlocal ('(' :: x) (endsName_bracket _ x) (fun _ => by simp) (fun _ => rfl)
  exact ⟨hread', .name hother' hident'⟩

/-- A URL is the same whatever stands behind it, also a broken one. -/
theorem url_local {after rest : Text} {leaf : Leaf} (hread : readName (c :: cs) = (name, '(' :: after))
    (hname : isNamed "url" name = true) (hquote : startsQuote (after.dropWhile isSpace) = false)
    (hurl : readUrl after = (leaf, rest)) (hrest : rest ≠ []) :
    ∃ u, cs = u ++ rest ∧ ∀ rest', Scanned c (u ++ rest') (.leaf leaf) rest' := by
  obtain ⟨u, rfl, hcalled⟩ := bracket_local hother hident hread
  obtain ⟨v, rfl, hlocal⟩ := readUrl_local hurl hrest hquote
  refine ⟨u ++ '(' :: v, by simp, fun rest' => ?_⟩
  obtain ⟨hread', hscanned⟩ := hcalled (v ++ rest')
  obtain ⟨hquote', hurl'⟩ := hlocal rest'
  rw [List.append_assoc, List.cons_append]
  exact hscanned (called_of_readUrl hread' hname hquote' hurl')

/-- An identifier is the same wherever neither a name nor a bracket nor what starts like it goes
on with it. -/
theorem ident_local {rest : Text} (hread : readName (c :: cs) = (name, rest)) (hrest : rest ≠ []) :
    ∃ u, cs = u ++ rest ∧ ∀ rest', stops (c :: u) (.leaf (.ident name)) rest' = true →
      Scanned c (u ++ rest') (.leaf (.ident name)) rest' := by
  obtain ⟨u, rfl, hlocal⟩ := name_local hother hident hread hrest
  refine ⟨u, rfl, fun rest' hstops => ?_⟩
  simp only [stops, Bool.and_eq_true, bne_iff_ne, Bool.not_eq_true', Bool.and_eq_false_iff,
    Bool.or_eq_false_iff, beq_eq_false_iff_ne] at hstops
  obtain ⟨⟨⟨hends, hhead⟩, hmarkup⟩, hrange⟩ := hstops
  obtain ⟨hread', hother', hident'⟩ := hlocal rest' hends
    (fun heq => hmarkup.resolve_left (absurd heq ·))
    (fun heq => hrange.resolve_left (absurd heq <| not_or.2 ·))
  exact .name hother' hident' (.ident hread' hhead)

/-- What starts with an identifier is the same wherever the text behind it does not go
on with it. -/
theorem called_local {rest : Text} {lexeme : Lexeme} (h : Called (c :: cs) lexeme rest)
    (hrest : rest ≠ []) :
    ∃ u, cs = u ++ rest ∧ ∀ rest', stops (c :: u) lexeme rest' = true →
      Scanned c (u ++ rest') lexeme rest' := by
  cases h with
  | ident hread _ => exact ident_local hother hident hread hrest
  | function hread hquote =>
    -- its name is the same, and if it is called like a URL there is still a quote behind it
    obtain ⟨u, rfl, hcalled⟩ := bracket_local hother hident hread
    refine ⟨u ++ ['('], by simp, fun rest' hstops => ?_⟩
    obtain ⟨hread', hscanned⟩ := hcalled rest'
    rw [List.append_assoc, List.singleton_append]
    refine hscanned (.function hread' fun hname => ?_)
    simpa [stops, hname] using hstops
  | url hread hname hquote hurl | badUrl hread hname hquote hurl =>
    obtain ⟨u, rfl, hlocal⟩ := url_local hother hident hread hname hquote hurl hrest
    exact ⟨u, rfl, fun rest' _ => hlocal rest'⟩

end Called

/-- A number with what belongs to it is the same wherever the text behind it does not
go on with it. -/
theorem measured_local {digits s rest : Text} {lexeme : Lexeme}
    (h : Measured digits s lexeme rest) (hrest : rest ≠ []) :
    ∃ t, s = t ++ rest ∧ ∀ rest', stops (digits ++ t) lexeme rest' = true →
      endsNumber digits (t ++ rest') = true ∧ Measured digits (t ++ rest') lexeme rest' := by
  cases h with
  | dimension hident hread =>
    obtain ⟨t, rfl, hlocal⟩ := readName_local hread hrest
    refine ⟨t, rfl, fun rest' hstops => ?_⟩
    simp only [stops, List.drop_left, Bool.and_eq_true] at hstops
    have ht : t ≠ [] := ne_nil_of_readName hrest hread (continuesName_of_startsIdent hident)
    have hident' := startsIdent_local ht hrest hread (continuesName_of_endsName hstops.1)
    exact ⟨hstops.2, .dimension (hident'.trans hident) (hlocal rest' hstops.1)⟩
  | percentage => exact ⟨['%'], rfl, fun rest' _ => ⟨by simp [endsNumber, readExponent], .percentage rest'⟩⟩
  | number =>
    refine ⟨[], rfl, fun rest' hstops => ?_⟩
    simp only [stops, Bool.and_eq_true, Bool.not_eq_true', bne_iff_ne] at hstops
    exact ⟨hstops.1.1, .number hstops.1.2 hstops.2⟩

/-! ## Every lexeme -/

/-- A character stands alone before every text that does not go on with it. -/
theorem StandsAlone.exchange {c : Char} {cs cs' : Text} (h : StandsAlone c cs)
    (hends : endsMark c cs' = true) : StandsAlone c cs' := by
  refine ⟨?_, ?_, h.quote, h.opening, h.closing, ?_, ?_, ?_, ?_⟩
  · rintro rfl
    simpa [endsMark] using hends
  · rintro rfl
    simpa [endsMark] using hends
  · rintro ⟨rfl, hhead⟩
    simp [endsMark, hhead] at hends
  · rintro ⟨rfl, hstart⟩
    simp [endsMark, hstart] at hends
  · rintro ⟨rfl, hhead⟩
    simp [endsMark, hhead] at hends
  · rintro ⟨hjoins, hhead⟩
    simp only [joinsEquals, Bool.or_eq_true, beq_iff_eq] at hjoins
    rcases hjoins with (((rfl | rfl) | rfl) | rfl) | rfl <;>
      simp [endsMark, joinsEquals, hhead] at hends

/-- Only the end of the text cuts a string off. -/
theorem readString_endOfText {quote : Char} {t value rest : Text}
    (h : readString quote t = (value, .endOfText, rest)) : rest = [] := by
  fun_induction readString quote t generalizing value rest with
  | case1 => cases h; rfl
  | case2 cs => cases h
  | case3 cs _ => cases h
  | case4 _ _ => cases h; rfl
  | case5 ds _ _ ih => exact ih h
  | case6 | case7 => rename_i ih; exact ih (Prod.ext rfl (Prod.mk.inj h).2)

/-- Punctuation is the same wherever the text behind it does not go on with it. -/
theorem punctuated_local {c : Char} {cs rest : Text} {lexeme : Lexeme}
    (h : Punctuated c cs lexeme rest) (hrest : rest ≠ []) :
    ∃ u, cs = u ++ rest ∧ ∀ rest', stops (c :: u) lexeme rest' = true →
      Punctuated c (u ++ rest') lexeme rest' := by
  have hcs := h.suffix
  cases h with
  | atKeyword hc hident hread =>
    obtain ⟨u, rfl, hlocal⟩ := readName_local hread hrest
    refine ⟨u, rfl, fun rest' (hends : endsName u rest' = true) => ?_⟩
    have hu : u ≠ [] := ne_nil_of_readName hrest hread (continuesName_of_startsIdent hident)
    have hident' := startsIdent_local hu hrest hread (continuesName_of_endsName hends)
    exact .atKeyword hc (hident'.trans hident) (hlocal rest' hends)
  | hash hc hname hread =>
    obtain ⟨u, rfl, hlocal⟩ := readName_local hread hrest
    refine ⟨u, rfl, fun rest' (hends : endsName u rest' = true) => ?_⟩
    have hu : u ≠ [] := ne_nil_of_readName hrest hread hname
    rw [← startsIdent_local hu hrest hread (continuesName_of_endsName hends)]
    exact .hash hc ((continuesName_local hu hrest hread rest').trans hname) (hlocal rest' hends)
  | string hc hread =>
    obtain ⟨body, rfl, hlocal⟩ := readString_local hread
    refine ⟨body ++ [c], by simp, fun rest' _ => .string hc ?_⟩
    rw [List.append_assoc, List.singleton_append, hlocal rest']
  | openString _ hread => exact absurd (readString_endOfText hread) hrest
  | badString =>
    -- nothing is said about a broken string
    obtain ⟨u, rfl⟩ := hcs
    exact ⟨u, rfl, nofun⟩
  | opening hc => exact ⟨[], rfl, fun rest' _ => .opening hc⟩
  | closing hc => exact ⟨[], rfl, fun rest' _ => .closing hc⟩
  | @comment _ after _ hc hcs hread =>
    obtain ⟨u, rfl, -, hlocal⟩ := readComment_local hrest after hread
    exact ⟨'*' :: u, hcs, fun rest' _ => .comment hc rfl (hlocal rest')⟩
  | markup hc hcs => exact ⟨['!', '-', '-'], hcs, fun rest' _ => .markup hc rfl⟩
  | bars hc hcs => exact ⟨['|'], hcs, fun rest' _ => .bars hc rfl⟩
  | equals hc hcs => exact ⟨['='], hcs, fun rest' _ => .equals hc rfl⟩
  | char halone => exact ⟨[], rfl, fun rest' hstops => .char (halone.exchange hstops)⟩

theorem punctuation_sign {c : Char} (hc : c = '\\' ∨ c = '-' ∨ c = '+' ∨ c = '.') (cs : Text) :
    punctuation c cs = (literal [c], cs) := by
  rcases hc with rfl | rfl | rfl | rfl <;> rfl

/-- The characters that can start an identifier or a number stand for themselves where
none starts. -/
theorem next_sign {c : Char} {rest : Text} (hc : c = '\\' ∨ c = '-' ∨ c = '+' ∨ c = '.')
    (hends : endsMark c rest = true) : next c rest = (literal [c], rest) := by
  have hnone : isSpace c = false ∧ isNameStart c = false
      ∧ ¬ (c = '-' ∧ Text.startsWith rest ['-', '>'] = true)
      ∧ startsIdent (c :: rest) = false ∧ readNumber? (c :: rest) = none := by
    rcases hc with rfl | rfl | rfl | rfl
    · have hhead : rest.head? = some '\n' := by simpa [endsMark] using hends
      obtain ⟨cs, rfl⟩ := List.head?_eq_some_iff.1 hhead
      exact ⟨rfl, rfl, by simp, rfl, rfl⟩
    · simp only [endsMark, Bool.and_eq_true, Bool.not_eq_true', Option.isNone_iff_eq_none,
        show '-' ≠ '@' by decide, show '-' ≠ '#' by decide, show '-' ≠ '\\' by decide, if_false,
        if_true] at hends
      refine ⟨rfl, rfl, fun ⟨_, harrow⟩ => ?_, hends⟩
      -- a second hyphen would start an identifier
      obtain ⟨cs, rfl⟩ := List.isPrefixOf_iff_prefix.1 harrow
      cases hends.1
    · exact ⟨rfl, rfl, by simp, rfl, by simpa [endsMark] using hends⟩
    · exact ⟨rfl, rfl, by simp, rfl, by simpa [endsMark] using hends⟩
  obtain ⟨hspace, hstart, harrow, hident, hnumber⟩ := hnone
  unfold next
  rw [if_neg (by simp [hspace]), readRange?_eq_none (Or.inl hstart)]
  simp only
  rw [if_neg harrow, if_neg (by simp [hident]), hnumber]
  exact punctuation_sign hc rest

/-- A number with what belongs to it is looked for again where it was found. -/
theorem number_local {c : Char} {cs digits after rest : Text} {lexeme : Lexeme}
    (hspace : isSpace c = false) (hread : readNumber? (c :: cs) = some (digits, after))
    (h : Measured digits after lexeme rest) (hrest : rest ≠ []) :
    ∃ u, cs = u ++ rest ∧ ∀ rest', stops (c :: u) lexeme rest' = true →
      Scanned c (u ++ rest') lexeme rest' := by
  obtain ⟨t, rfl, hlocal⟩ := measured_local h hrest
  obtain ⟨happend, hne⟩ := readNumber?_append hread
  obtain ⟨c', u, rfl⟩ := List.exists_cons_of_ne_nil hne
  obtain ⟨rfl, hcs⟩ := List.cons.inj happend
  obtain rfl : cs = (u ++ t) ++ rest := hcs.symm.trans (List.append_assoc u t rest).symm
  refine ⟨u ++ t, rfl, fun rest' hstops => ?_⟩
  obtain ⟨hends, hmeasured⟩ := hlocal rest' hstops
  -- whatever stands behind it, nothing that is looked for earlier starts with a number
  have hnumeral := (numeral_of_readNumber? hread).1
  obtain ⟨hident, harrow⟩ := hnumeral.not_startsIdent (t ++ rest')
  have hstart : isNameStart c' = false := isNameStart_of_not_startsIdent hident
  rw [List.append_assoc]
  exact .number ⟨hspace, readRange?_eq_none (Or.inl hstart), harrow _ _ rfl⟩ hident
    (hnumeral.read hends) hmeasured

/-- Punctuation is looked for again where it was found. -/
theorem punctuation_local {c : Char} {cs rest : Text} {lexeme : Lexeme}
    (hspace : isSpace c = false) (hident : startsIdent (c :: cs) = false)
    (hnumber : readNumber? (c :: cs) = none) (h : Punctuated c cs lexeme rest) (hrest : rest ≠ []) :
    ∃ u, cs = u ++ rest ∧ ∀ rest', stops (c :: u) lexeme rest' = true →
      next c (u ++ rest') = (lexeme, rest') := by
  have hstart : isNameStart c = false := isNameStart_of_not_startsIdent hident
  have hdigit : c.isDigit = false := by
    rw [Bool.eq_false_iff]
    exact fun hc => readNumber?_digit hc cs hnumber
  by_cases hsign : c = '\\' ∨ c = '-' ∨ c = '+' ∨ c = '.'
  · -- a literal, as it is before any text that no identifier or number goes on with
    obtain ⟨rfl, rfl⟩ := Prod.mk.inj ((punctuation_sign hsign cs).symm.trans h.punctuation_eq)
    exact ⟨[], rfl, fun rest' hstops => next_sign hsign hstops⟩
  · rw [not_or, not_or, not_or] at hsign
    have hpunctuation : IsPunctuation c :=
      ⟨hspace, hstart, hdigit, hsign.2.1, hsign.2.2.1, hsign.2.2.2, hsign.1⟩
    obtain ⟨u, rfl, hlocal⟩ := punctuated_local h hrest
    exact ⟨u, rfl, fun rest' hstops => (hlocal rest' hstops).next_eq hpunctuation⟩

/-- **What a lexeme is, is decided where it ends.**  What was read as a lexeme before a
text is read as the same lexeme before every text that it ends before. -/
theorem next_local {c : Char} {cs rest : Text} {lexeme : Lexeme} (h : next c cs = (lexeme, rest))
    (hrest : rest ≠ []) : ∃ u, cs = u ++ rest ∧ ∀ rest', stops (c :: u) lexeme rest' = true →
      next c (u ++ rest') = (lexeme, rest') := by
  cases scanned_of_next h with
  | whitespace hspace =>
    obtain ⟨run, after, rfl, hrun, hafter⟩ := exists_takeWhile isSpace cs
    rw [takeWhile_run hrun hafter, dropWhile_run hrun hafter]
    refine ⟨run, rfl, fun rest' hstops => ?_⟩
    have hstop : rest'.head?.any isSpace = false := by simpa [stops] using hstops
    rw [next, if_pos hspace, takeWhile_run hrun hstop, dropWhile_run hrun hstop]
  | range hc hcs hd hread =>
    obtain ⟨u, first, last, hu, hleaf, hrange, hne⟩ := exists_isRange hread
    cases hleaf
    obtain ⟨d', u, rfl⟩ := List.exists_cons_of_ne_nil (hne hd)
    obtain ⟨rfl, rfl⟩ := List.cons.inj hu
    exact ⟨'+' :: _ :: u, hcs, fun rest' hstops =>
      (Scanned.range hc rfl hd (hrange.read hstops)).next_eq⟩
  | arrow hc hcs => exact ⟨['-', '>'], hcs, fun rest' _ => (Scanned.arrow hc rfl).next_eq⟩
  | name hother hident h =>
    obtain ⟨u, hu, hlocal⟩ := called_local hother hident h hrest
    exact ⟨u, hu, fun rest' hstops => (hlocal rest' hstops).next_eq⟩
  | number hother _ hread h =>
    obtain ⟨u, hu, hlocal⟩ := number_local hother.space hread h hrest
    exact ⟨u, hu, fun rest' hstops => (hlocal rest' hstops).next_eq⟩
  | punctuation hother hident hnumber h => exact punctuation_local hother.space hident hnumber h hrest

end Lexeme

end NestedSheet
