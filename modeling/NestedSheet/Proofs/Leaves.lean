import Mathlib.Algebra.Group.Nat.Defs
import Mathlib.Data.List.Induction
import NestedSheet.Proofs.Lookahead
import NestedSheet.Proofs.Positions
import NestedSheet.Proofs.Respacing

/-!
# What leaves are like

The type of leaves allows more than a text can have: a name without characters, a number
that is none, a literal of any text.  `Leaf.WellFormed` says what is true of the leaves
that are read from a text, and `wellFormed_of_next` proves it, once for every branch of
the scanner.
-/

namespace NestedSheet

namespace Component

/-! ## No leaf holds a NUL -/

theorem charOfCode_ne_nul (n : Nat) : charOfCode n ≠ '\x00' := by
  unfold charOfCode
  split
  · decide
  · next h =>
    rw [not_or, not_not] at h
    intro hnul
    have hcode : n = 0 := by
      have hsame := congrArg Char.toNat hnul
      rwa [Char.ofNat, dif_pos h.2] at hsame
    exact h.1 hcode

section Nul

variable {t : Text}

theorem readEscape_ne_nul (h : '\x00' ∉ t) : (readEscape t).1 ≠ '\x00' := by
  unfold readEscape
  simp only
  split
  · cases t with
    | nil => decide
    | cons c cs => exact fun hc => h (hc ▸ List.mem_cons_self)
  · exact charOfCode_ne_nul _

theorem nul_not_mem_readEscape (h : '\x00' ∉ t) : '\x00' ∉ (readEscape t).2 :=
  fun hmem => h ((readEscape_suffix t).subset hmem)

theorem nul_not_mem_readName (h : '\x00' ∉ t) : '\x00' ∉ (readName t).1 := by
  induction t using readName.induct with
  | case1 => rw [readName]; exact List.not_mem_nil
  | case2 c cs hc ih =>
    rw [List.mem_cons, not_or] at h
    rw [readName_char hc, List.mem_cons, not_or]
    exact ⟨h.1, ih h.2⟩
  | case3 c cs hc hescape ih =>
    rw [List.mem_cons, not_or] at h
    rw [readName, if_neg hc, if_pos hescape, List.mem_cons, not_or]
    exact ⟨(readEscape_ne_nul h.2).symm, ih (nul_not_mem_readEscape h.2)⟩
  | case4 c cs hc hescape =>
    rw [readName, if_neg hc, if_neg hescape]
    exact List.not_mem_nil

theorem nul_not_mem_readString (quote : Char) (h : '\x00' ∉ t) :
    '\x00' ∉ (readString quote t).1 := by
  fun_induction readString quote t with
  | case1 => exact List.not_mem_nil
  | case2 cs => exact List.not_mem_nil
  | case3 cs _ => exact List.not_mem_nil
  | case4 _ _ => exact List.not_mem_nil
  | case5 ds _ _ ih => exact ih fun hmem => h (by simp [hmem])
  | case6 d ds _ more _ _ ih =>
    have htail : '\x00' ∉ d :: ds := fun hmem => h (List.mem_cons_of_mem _ hmem)
    rw [List.mem_cons, not_or]
    exact ⟨(readEscape_ne_nul htail).symm, ih (nul_not_mem_readEscape htail)⟩
  | case7 c cs _ _ _ more ih =>
    rw [List.mem_cons, not_or] at h ⊢
    exact ⟨h.1, ih h.2⟩

theorem nul_not_mem_readUrlValue (h : '\x00' ∉ t) : '\x00' ∉ (readUrlValue t).1 := by
  fun_induction readUrlValue t with
  | case1 => exact List.not_mem_nil
  | case2 cs => exact List.not_mem_nil
  | case3 c cs _ _ _ => exact List.not_mem_nil
  | case4 c cs _ _ ds _ => exact List.not_mem_nil
  | case5 c cs _ _ d ds _ _ => exact List.not_mem_nil
  | case6 c cs _ _ _ more ih =>
    rw [List.mem_cons, not_or] at h ⊢
    exact ⟨(readEscape_ne_nul h.2).symm, ih (nul_not_mem_readEscape h.2)⟩
  | case7 c cs => exact List.not_mem_nil
  | case8 c cs _ _ _ _ more ih =>
    rw [List.mem_cons, not_or] at h ⊢
    exact ⟨h.1, ih h.2⟩

end Nul

/-! ## Bounds of ranges -/

theorem hexDigit_lt {c : Char} (h : isHex c = true) : hexDigit c < 16 := by
  have h0 : '0'.toNat = 48 := rfl
  have ha : 'a'.toNat = 97 := rfl
  have hA : 'A'.toNat = 65 := rfl
  simp only [isHex, Bool.or_eq_true, Bool.and_eq_true, decide_eq_true_eq, Char.le_def,
    UInt32.le_iff_toNat_le] at h
  have hc : c.val.toNat = c.toNat := rfl
  have hf : 'f'.val.toNat = 102 := rfl
  have hF : 'F'.val.toNat = 70 := rfl
  have ha' : 'a'.val.toNat = 97 := rfl
  have hA' : 'A'.val.toNat = 65 := rfl
  unfold hexDigit
  split
  · next hdigit =>
    simp only [Char.isDigit, Bool.and_eq_true, decide_eq_true_eq, ge_iff_le,
      UInt32.le_iff_toNat_le] at hdigit
    have h9 : '9'.val.toNat = 57 := rfl
    omega
  · next hdigit =>
    split
    · next hle =>
      rw [Char.le_def, UInt32.le_iff_toNat_le] at hle
      rcases h with (h | h) | h
      · exact absurd h hdigit
      · omega
      · omega
    · rcases h with (h | h) | h
      · exact absurd h hdigit
      · next hle =>
        rw [Char.le_def, UInt32.le_iff_toNat_le] at hle
        omega
      · omega

theorem hexValue_append (t : Text) (c : Char) : hexValue (t ++ [c]) = 16 * hexValue t + hexDigit c := by
  rw [hexValue, List.foldl_append]
  rfl

theorem hexValue_lt {t : Text} (h : ∀ c ∈ t, isHex c = true) : hexValue t < 16 ^ t.length := by
  induction t using List.reverseRecOn with
  | nil => decide
  | append_singleton t c ih =>
    have hc := hexDigit_lt (h c (by simp))
    have ht := ih fun d hd => h d (by simp [hd])
    rw [hexValue_append, List.length_append, List.length_singleton, Nat.pow_succ]
    omega

/-- The numbers of a unicode range have at most six digits. -/
theorem IsRange.lt {u : Text} {first last : Nat} (h : IsRange u first last) :
    first < 16 ^ 6 ∧ last < 16 ^ 6 := by
  have hvalue : ∀ {digits : Text}, (∀ c ∈ digits, isHex c = true) → digits.length ≤ 6 →
      hexValue digits < 16 ^ 6 := fun hdigits hlength =>
    (hexValue_lt hdigits).trans_le (Nat.pow_le_pow_right (by decide) hlength)
  cases h with
  | @marks digits marks hdigits _ _ hlength =>
    -- question marks stand for further digits
    have hfilled : ∀ d : Char, isHex d = true →
        hexValue (digits ++ marks.map fun _ => d) < 16 ^ 6 := by
      intro d hd
      refine hvalue (fun c hc => ?_) (by rwa [List.length_append, List.length_map])
      rcases List.mem_append.1 hc with hc | hc
      · exact hdigits c hc
      · obtain ⟨-, -, rfl⟩ := List.mem_map.1 hc
        exact hd
    exact ⟨hfilled '0' rfl, hfilled 'F' rfl⟩
  | pair hfirst hlength hlast _ hlength' => exact ⟨hvalue hfirst hlength, hvalue hlast hlength'⟩
  | single hdigits hlength => exact ⟨hvalue hdigits hlength, hvalue hdigits hlength⟩

/-! ## Leaves -/

/-- A name as a text can have it. -/
def IsNameValue (name : Text) : Prop :=
  name ≠ [] ∧ '\x00' ∉ name

/-- A number as it is written. -/
def IsNumber (digits : Text) : Prop :=
  (∀ c ∈ digits, isNormal c = true) ∧ ∃ t rest, readNumber? t = some (digits, rest)

theorem IsNumber.numeral {digits : Text} (h : IsNumber digits) : Numeral digits := by
  obtain ⟨-, t, rest, hread⟩ := h
  exact (numeral_of_readNumber? hread).1

/-- A name that no identifier starts with: it starts with a digit, behind a hyphen or
not, or is a hyphen. -/
def IsBareName (name : Text) : Prop :=
  name = ['-'] ∨ (∃ c cs, c.isDigit = true ∧ (name = c :: cs ∨ name = '-' :: c :: cs))

/-- A character that starts nothing but itself. -/
def isLiteralChar (c : Char) : Bool :=
  !isSpace c && !isNameStart c && !c.isDigit && !Text.isQuote c && (Bracket.ofOpening? c).isNone
    && (Bracket.ofClosing? c).isNone && isNormal c

/-- The text of a literal. -/
inductive IsLiteralText : Text → Prop
  | char {c : Char} (hc : isLiteralChar c = true) : IsLiteralText [c]
  | arrow : IsLiteralText ['-', '-', '>']
  | markup : IsLiteralText ['<', '!', '-', '-']
  | bars : IsLiteralText ['|', '|']
  | equals {c : Char} (hc : Lexeme.joinsEquals c = true) : IsLiteralText [c, '=']

end Component

open Component

/-- What is true of a leaf that is read from a text. -/
def Leaf.WellFormed : Leaf → Prop
  | .whitespace t => t ≠ [] ∧ ∀ c ∈ t, isSpace c = true
  | .ident name => IsNameValue name
  | .atKeyword name => IsNameValue name
  | .hash name isIdentifier => IsNameValue name ∧ (isIdentifier = false → IsBareName name)
  | .string value _ => '\x00' ∉ value
  | .url value _ => '\x00' ∉ value
  | .number digits => IsNumber digits
  | .percentage digits => IsNumber digits
  | .dimension digits unit => IsNumber digits ∧ IsNameValue unit
  | .unicodeRange first last => first < 16 ^ 6 ∧ last < 16 ^ 6
  | .literal t => IsLiteralText t
  | .badString => True
  | .badUrl => True
  | .unmatched _ => True

/-- What is true of a lexeme that is read from a text. -/
def Lexeme.WellFormed : Lexeme → Prop
  | .leaf l => l.WellFormed
  | .function name => IsNameValue name
  | _ => True

namespace Lexeme

theorem isNameValue_readName {c : Char} {cs : Text} (hnul : '\x00' ∉ c :: cs)
    (hname : continuesName (c :: cs) = true) : IsNameValue (readName (c :: cs)).1 := by
  refine ⟨?_, nul_not_mem_readName hnul⟩
  simp only [continuesName, List.head?_cons, Option.any_some, Bool.or_eq_true] at hname
  rw [readName]
  split
  · exact List.cons_ne_nil _ _
  · next hc =>
    rw [if_pos (hname.resolve_left hc)]
    exact List.cons_ne_nil _ _

theorem wellFormed_called {c : Char} {cs rest : Text} {lexeme : Lexeme} (hnul : '\x00' ∉ c :: cs)
    (hident : startsIdent (c :: cs) = true) (h : Called (c :: cs) lexeme rest) :
    lexeme.WellFormed := by
  have hname := isNameValue_readName hnul (continuesName_of_startsIdent hident)
  have hsuffix := readName_suffix (c :: cs)
  cases h with
  | ident hread | function hread =>
    rw [hread] at hname
    exact hname
  | @url _ after _ _ _ hread _ _ hurl =>
    rw [hread] at hsuffix
    have hnul' : '\x00' ∉ after.dropWhile isSpace := fun hmem =>
      hnul (hsuffix.subset (List.mem_cons_of_mem _ ((List.dropWhile_suffix _).subset hmem)))
    have hvalue := nul_not_mem_readUrlValue hnul'
    unfold readUrl at hurl
    split at hurl <;> cases hurl <;>
    · next heq =>
      rw [heq] at hvalue
      exact hvalue
  | badUrl => trivial

theorem wellFormed_measured {digits after rest : Text} {lexeme : Lexeme} (hnul : '\x00' ∉ after)
    (hdigits : IsNumber digits) (h : Measured digits after lexeme rest) : lexeme.WellFormed := by
  cases h with
  | dimension hident hread =>
    cases after with
    | nil => cases hident
    | cons c cs =>
      have hname := isNameValue_readName hnul (continuesName_of_startsIdent hident)
      rw [hread] at hname
      exact ⟨hdigits, hname⟩
  | percentage => exact hdigits
  | number => exact hdigits

/-- A name that no identifier starts with starts with a digit, behind a hyphen or not, or
is a hyphen. -/
theorem isBareName_readName {cs : Text} (hname : continuesName cs = true)
    (hident : startsIdent cs = false) : IsBareName (readName cs).1 := by
  have hdigit : ∀ {c : Char}, isNameChar c = true → isNameStart c = false → c ≠ '-' →
      c.isDigit = true := by
    intro c hc hstart hhyphen
    simpa [isNameChar, hstart, hhyphen] using hc
  cases cs with
  | nil => cases hname
  | cons c cs =>
    simp only [continuesName, List.head?_cons, Option.any_some, Bool.or_eq_true] at hname
    simp only [startsIdent, Bool.or_eq_false_iff, Bool.and_eq_false_iff, beq_eq_false_iff_ne] at hident
    obtain ⟨⟨hstart, hescape⟩, hhyphen⟩ := hident
    have hc := hname.resolve_right (by simp [hescape])
    rw [readName_char hc]
    rcases eq_or_ne c '-' with rfl | hne
    · obtain ⟨hnext, hescape'⟩ := hhyphen.resolve_left (absurd rfl)
      cases cs with
      | nil => exact Or.inl (by rw [readName])
      | cons d ds =>
        simp only [List.head?_cons, Option.any_some, Bool.or_eq_false_iff,
          beq_eq_false_iff_ne] at hnext
        by_cases hd : isNameChar d = true
        · rw [readName_char hd]
          exact Or.inr ⟨d, _, hdigit hd hnext.1 hnext.2, Or.inr rfl⟩
        · have hstop : continuesName (d :: ds) = false := by
            simpa [continuesName, hescape'] using hd
          rw [readName_stop hstop]
          exact Or.inl rfl
    · exact Or.inr ⟨c, _, hdigit hc hstart hne, Or.inl rfl⟩

theorem wellFormed_punctuated {c : Char} {cs rest : Text} {lexeme : Lexeme}
    (hnormal : ∀ d ∈ c :: cs, isNormal d = true) (hspace : isSpace c = false)
    (hstart : isNameStart c = false) (hdigit : c.isDigit = false)
    (h : Punctuated c cs lexeme rest) : lexeme.WellFormed := by
  have hnul : '\x00' ∉ cs := fun hmem => absurd (hnormal _ (List.mem_cons_of_mem c hmem)) (by decide)
  cases h with
  | atKeyword _ hident hread =>
    cases cs with
    | nil => cases hident
    | cons d ds =>
      have hname := isNameValue_readName hnul (continuesName_of_startsIdent hident)
      rwa [hread] at hname
  | hash _ hname hread =>
    have hbare := isBareName_readName hname
    cases cs with
    | nil => cases hname
    | cons d ds =>
      have hvalue := isNameValue_readName hnul hname
      rw [hread] at hvalue hbare
      exact ⟨hvalue, hbare⟩
  | string _ hread | openString _ hread =>
    have hvalue := nul_not_mem_readString c hnul
    rwa [hread] at hvalue
  | badString | opening | closing | comment => trivial
  | markup => exact .markup
  | bars => exact .bars
  | equals hc => exact .equals hc
  | char halone =>
    refine .char ?_
    simp [isLiteralChar, hspace, hstart, hdigit, halone.quote, halone.opening, halone.closing,
      hnormal c List.mem_cons_self]

/-- **What is read from a normal text is well formed.** -/
theorem wellFormed_of_next {c : Char} {cs : Text} (hnormal : ∀ d ∈ c :: cs, isNormal d = true) :
    (next c cs).1.WellFormed := by
  have hnul : '\x00' ∉ c :: cs := fun hmem => absurd (hnormal _ hmem) (by decide)
  generalize hnext : next c cs = scanned
  obtain ⟨lexeme, rest⟩ := scanned
  cases scanned_of_next hnext with
  | whitespace hspace =>
    refine ⟨List.cons_ne_nil _ _, List.forall_mem_cons.2 ⟨hspace, fun d hd => ?_⟩⟩
    exact List.mem_takeWhile_imp hd
  | range _ _ _ hread =>
    obtain ⟨u, first, last, -, hleaf, hu, -⟩ := exists_isRange hread
    cases hleaf
    exact hu.lt
  | arrow => exact .arrow
  | name _ hident h => exact wellFormed_called hnul hident h
  | number _ _ hread h =>
    obtain ⟨happend, -⟩ := readNumber?_append hread
    rw [← happend] at hnul hnormal
    refine wellFormed_measured (fun hmem => hnul (List.mem_append_right _ hmem)) ⟨?_, _, _, hread⟩ h
    exact fun d hd => hnormal d (List.mem_append_left _ hd)
  | punctuation hother hident hnumber h =>
    refine wellFormed_punctuated hnormal hother.space (isNameStart_of_not_startsIdent hident) ?_ h
    rw [Bool.eq_false_iff]
    exact fun hc => readNumber?_digit hc cs hnumber

end Lexeme

end NestedSheet
