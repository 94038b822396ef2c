import NestedSheet.Component.Print
import NestedSheet.Proofs.Leaves

/-!
# Printed leaves are read back

A leaf is printed with escapes where its characters may not stand as they are, so that
reading the text gives the leaf again.  This module proves it for every leaf that a text
can have (`Stretch.reads_leaf`), and for the start of a function (`Stretch.reads_function`).

There are two exceptions, and `Leaf.isFaithful` leaves them out: the units that look like
an exponent and are printed as another unit or as none, and the URLs with control
characters, which are printed as they are.

What a lexeme is depends on the text behind it only through `Lexeme.stops`, so it is
enough to read every printed text before one semicolon (`Stretch.reads_of_next`).
-/

namespace NestedSheet

namespace Component

/-! ## Escapes -/

theorem isNameStart_or_isDigit_of_isHex {c : Char} (h : isHex c = true) :
    isNameStart c = true ∨ c.isDigit = true := by
  have hchar := isNameChar_of_isHex h
  simp only [isNameChar, Bool.or_eq_true, beq_iff_eq] at hchar
  refine hchar.resolve_right ?_
  rintro rfl
  cases h

/-- The text is an escape that stands for the character, whatever is behind it. -/
def Spells (text : Text) (c : Char) : Prop :=
  ∃ d e, text = '\\' :: d :: e ∧ d ≠ '\n' ∧ ∀ t, readEscape (d :: (e ++ t)) = (c, t)

/-- Digits with a space behind them stand for the character of their number. -/
theorem spells_hex {digits : Text} (hne : digits ≠ []) (hdigits : ∀ c ∈ digits, isHex c = true)
    (hlength : digits.length ≤ 6) :
    Spells ('\\' :: digits ++ [' ']) (charOfCode (hexValue digits)) := by
  obtain ⟨d, ds, rfl⟩ := List.exists_cons_of_ne_nil hne
  refine ⟨d, ds ++ [' '], rfl, ?_, fun t => ?_⟩
  · rintro rfl
    cases hdigits '\n' List.mem_cons_self
  · rw [List.append_assoc]
    exact readEscape_hex hne hdigits hlength (Or.inr rfl)

/-- A line control is written as its number. -/
theorem spells_control {c : Char} {text : Text} (h : controlEscape? c = some text) : Spells text c := by
  unfold controlEscape? at h
  split_ifs at h with hnewline hreturn hfeed
  · cases h
    exact hnewline ▸ @spells_hex ['A'] nofun (List.all_eq_true.1 rfl) (by decide)
  · cases h
    exact hreturn ▸ @spells_hex ['D'] nofun (List.all_eq_true.1 rfl) (by decide)
  · cases h
    exact hfeed ▸ @spells_hex ['C'] nofun (List.all_eq_true.1 rfl) (by decide)

theorem ne_newline_of_controlEscape? {c : Char} (h : controlEscape? c = none) : c ≠ '\n' := by
  rintro rfl
  cases h

theorem spells_char {c : Char} (hc : isHex c = false) (hnewline : c ≠ '\n') : Spells ['\\', c] c :=
  ⟨c, [], rfl, hnewline, readEscape_char hc⟩

theorem spells_escaped {c : Char} (hc : isHex c = false) : Spells (escaped c) c := by
  unfold escaped
  cases hcontrol : controlEscape? c with
  | some text => exact spells_control hcontrol
  | none => exact spells_char hc (ne_newline_of_controlEscape? hcontrol)

section Spells

variable {text : Text} {c : Char} (h : Spells text c) (t : Text)

include h

theorem Spells.startsEscape : startsEscape (text ++ t) = true := by
  obtain ⟨d, e, rfl, hd, -⟩ := h
  exact startsEscape_iff.2 ⟨d :: (e ++ t), rfl, by simpa using hd⟩

theorem Spells.readName : readName (text ++ t) = (c :: (readName t).1, (readName t).2) := by
  obtain ⟨d, e, rfl, hd, hread⟩ := h
  have hhead : (d :: (e ++ t)).head? ≠ some '\n' := by simpa using hd
  rw [List.cons_append, List.cons_append, readName_escape hhead, hread]

theorem Spells.readString {quote : Char} (hquote : '\\' ≠ quote) :
    readString quote (text ++ t) = (c :: (readString quote t).1, (readString quote t).2) := by
  obtain ⟨d, e, rfl, hd, hread⟩ := h
  rw [List.cons_append, List.cons_append, readString_escape hquote hd, hread]

theorem Spells.readUrlValue :
    readUrlValue (text ++ t) = (c :: (readUrlValue t).1, (readUrlValue t).2) := by
  have hescape := h.startsEscape t
  obtain ⟨d, e, rfl, hd, hread⟩ := h
  rw [List.cons_append, List.cons_append] at hescape ⊢
  rw [readUrlValue.eq_def]
  simp only [hescape, hread, if_true]
  rfl

end Spells

/-! ## Hexadecimal numbers -/

theorem hexUpper_of_lt {n : Nat} (h : n < 16) : hexUpper n = [(Nat.digitChar n).toUpper] := by
  rw [hexUpper, Nat.toDigits_of_lt_base h]
  rfl

theorem hexUpper_of_le {n : Nat} (h : 16 ≤ n) :
    hexUpper n = hexUpper (n / 16) ++ [(Nat.digitChar (n % 16)).toUpper] := by
  rw [hexUpper, Nat.toDigits_eq_if (by decide), if_neg (by omega), List.map_append]
  rfl

theorem isHex_digitChar : ∀ n < 16, isHex (Nat.digitChar n).toUpper = true
    ∧ hexDigit (Nat.digitChar n).toUpper = n := by
  decide +kernel

/-- The digits of a number have its value. -/
theorem hexUpper_spec (n : Nat) : hexUpper n ≠ [] ∧ (∀ c ∈ hexUpper n, isHex c = true)
    ∧ hexValue (hexUpper n) = n := by
  induction n using Nat.strongRecOn with
  | ind n ih =>
    rcases Nat.lt_or_ge n 16 with hlt | hge
    · obtain ⟨hhex, hvalue⟩ := isHex_digitChar n hlt
      rw [hexUpper_of_lt hlt]
      refine ⟨List.cons_ne_nil _ _, List.forall_mem_singleton.2 hhex, ?_⟩
      rw [← hvalue]
      simp [hexValue, hvalue]
    · obtain ⟨-, hdigits, hvalue⟩ := ih (n / 16) (by omega)
      obtain ⟨hhex, hlast⟩ := isHex_digitChar (n % 16) (Nat.mod_lt n (by decide))
      rw [hexUpper_of_le hge]
      refine ⟨by simp, ?_, ?_⟩
      · rw [List.forall_mem_append]
        exact ⟨hdigits, List.forall_mem_singleton.2 hhex⟩
      · rw [hexValue_append, hvalue, hlast]
        omega

theorem length_hexUpper {n : Nat} (h : n < 16 ^ 6) : (hexUpper n).length ≤ 6 := by
  rw [hexUpper, List.length_map, Nat.length_toDigits_le_iff (by decide) (by decide)]
  exact h

theorem charOfCode_toNat {c : Char} (hc : c ≠ '\x00') : charOfCode c.toNat = c := by
  have hne : c.toNat ≠ 0 := fun hzero => hc (Char.toNat_inj.1 hzero)
  have hvalid : c.toNat.isValidChar := c.valid
  rw [charOfCode, if_neg (by simp [hne, hvalid]), Char.ofNat_toNat]

/-! ## Names -/

/-- A printed name is read back before a text that does not go on with it. -/
theorem readName_printName (name : Text) {rest : Text} (hrest : continuesName rest = false) :
    readName (printName name ++ rest) = (name, rest) := by
  induction name with
  | nil => exact readName_stop hrest
  | cons c cs ih =>
    rw [printName, List.flatMap_cons, List.append_assoc]
    split
    · next hc =>
      rw [List.singleton_append, readName_char hc]
      exact congrArg (fun r => (c :: r.1, r.2)) ih
    · next hc =>
      have hhex : isHex c = false := by
        rw [Bool.eq_false_iff]
        exact fun hhex => hc (isNameChar_of_isHex hhex)
      rw [(spells_escaped hhex).readName]
      exact congrArg (fun r => (c :: r.1, r.2)) ih

/-- The first character of an identifier is printed as it is, or as an escape. -/
theorem printFirst_cases (c : Char) :
    (isNameStart c = true ∧ printFirst c = [c]) ∨ Spells (printFirst c) c := by
  unfold printFirst
  split_ifs with hstart hdigit
  · exact Or.inl ⟨hstart, rfl⟩
  · obtain ⟨hne, hdigits, hvalue⟩ := hexUpper_spec c.toNat
    have hlength : (hexUpper c.toNat).length ≤ 6 := by
      refine length_hexUpper ?_
      simp only [Char.isDigit, Bool.and_eq_true, decide_eq_true_eq, ge_iff_le,
        UInt32.le_iff_toNat_le] at hdigit
      have hnine : '9'.val.toNat = 57 := rfl
      have hc : c.val.toNat = c.toNat := rfl
      omega
    have hnul : c ≠ '\x00' := by
      rintro rfl
      cases hdigit
    have hspells := spells_hex hne hdigits hlength
    rw [hvalue, charOfCode_toNat hnul] at hspells
    exact Or.inr hspells
  · refine Or.inr (spells_escaped ?_)
    rw [Bool.eq_false_iff]
    intro hhex
    exact (isNameStart_or_isDigit_of_isHex hhex).elim hstart hdigit

theorem readName_printFirst (c : Char) (t : Text) :
    readName (printFirst c ++ t) = (c :: (readName t).1, (readName t).2) := by
  rcases printFirst_cases c with ⟨hstart, hprint⟩ | hspells
  · rw [hprint]
    exact readName_char (isNameChar_of_isNameStart hstart) t
  · exact hspells.readName t

/-- The first character of an identifier starts one, also behind a hyphen. -/
theorem startsIdent_printFirst (c : Char) (t : Text) : startsIdent (printFirst c ++ t) = true
    ∧ startsIdent ('-' :: (printFirst c ++ t)) = true := by
  rcases printFirst_cases c with ⟨hstart, hprint⟩ | hspells
  · rw [hprint]
    simp [startsIdent, hstart]
  · have hescape := hspells.startsEscape t
    cases htext : printFirst c ++ t with
    | nil => rw [htext] at hescape; cases hescape
    | cons d ds =>
      rw [htext] at hescape
      simp [startsIdent, hescape]

/-- A printed identifier is read back before a text that does not go on with it, and
starts like one. -/
theorem readName_printIdent {name rest : Text} (hne : name ≠ []) (hrest : continuesName rest = false) :
    readName (printIdent name ++ rest) = (name, rest)
      ∧ startsIdent (printIdent name ++ rest) = true := by
  unfold printIdent
  split
  · exact absurd rfl hne
  · have hspells : Spells ['\\', '-'] '-' := spells_char rfl (by decide)
    rw [hspells.readName, readName_stop hrest]
    exact ⟨rfl, rfl⟩
  · next cs =>
    rw [List.cons_append, List.cons_append, readName_char rfl, readName_char rfl,
      readName_printName cs hrest]
    exact ⟨rfl, rfl⟩
  · next c cs _ =>
    rw [List.cons_append, List.cons_append, List.append_assoc, readName_char rfl,
      readName_printFirst, readName_printName cs hrest]
    exact ⟨rfl, (startsIdent_printFirst c _).2⟩
  · next c cs _ _ _ =>
    rw [List.append_assoc, readName_printFirst, readName_printName cs hrest]
    exact ⟨rfl, (startsIdent_printFirst c _).1⟩

/-! ## Units -/

/-- Is a unit printed as itself behind its number?  One that looks like an exponent is
printed with an escape, but always with that of a small letter, and not if the exponent
has no sign. -/
def isFaithfulUnit (digits unit : Text) : Bool :=
  unit != ['E'] && !Text.startsWith unit ['E', '-']
    && (hasExponent digits
      || !(unit.head?.any (fun c => c == 'e' || c == 'E') && (unit.drop 1).head?.any Char.isDigit))

theorem head_of_startsIdent {c : Char} {cs : Text} (h : startsIdent (c :: cs) = true) :
    isNameStart c = true ∨ c = '\\' ∨ c = '-' := by
  simp only [startsIdent, Bool.or_eq_true, Bool.and_eq_true, beq_iff_eq] at h
  rcases h with (h | h) | h
  · exact Or.inl h
  · obtain ⟨ds, hds, -⟩ := startsEscape_iff.1 h
    exact Or.inr (Or.inl (List.cons.inj hds).1)
  · exact Or.inr (Or.inr h.1)

theorem endsNumber_of_startsIdent {digits t : Text} (h : startsIdent t = true)
    (hexponent : hasExponent digits = true ∨ (readExponent t).1 = []) : endsNumber digits t = true := by
  cases t with
  | nil => cases h
  | cons c cs =>
    have hc := not_number_of_head (head_of_startsIdent h)
    simp only [endsNumber, List.head?_cons, Option.any_some, hc.1, Bool.not_false, Bool.true_and,
      Bool.and_eq_true, Bool.or_eq_true, List.isEmpty_iff]
    refine ⟨Or.inr ?_, hexponent⟩
    simp [hc.2]

theorem readExponent_letter {c : Char} (hc : c ≠ 'e' ∧ c ≠ 'E') (t : Text) :
    (readExponent (c :: t)).1 = [] := by
  simp [readExponent, hc]

theorem readExponent_stop (e : Char) {c : Char} (hc : c ≠ '+' ∧ c ≠ '-') (hdigit : c.isDigit = false)
    (t : Text) : (readExponent (e :: c :: t)).1 = [] := by
  simp [readExponent, readSign_stop hc, hdigit]

/-- No exponent starts where a unit is printed that does not look like one. -/
theorem readExponent_printIdent {unit : Text} (hne : unit ≠ []) (hsmall : unit ≠ ['e'])
    (hcapital : unit ≠ ['E']) (hsigned : ∀ e cs, unit = e :: '-' :: cs → e ≠ 'e' ∧ e ≠ 'E')
    (hdigits : ∀ e d cs, unit = e :: d :: cs → (e = 'e' ∨ e = 'E') → d.isDigit = false) (rest : Text) :
    (readExponent (printIdent unit ++ rest)).1 = [] := by
  unfold printIdent
  split
  · exact absurd rfl hne
  · exact readExponent_letter (by decide) _
  · exact readExponent_letter (by decide) _
  · exact readExponent_letter (by decide) _
  · next c cs _ _ _ =>
    rcases printFirst_cases c with ⟨-, hprint⟩ | ⟨d, e, hprint, -, -⟩
    · rw [hprint]
      by_cases hc : c = 'e' ∨ c = 'E'
      · -- behind the letter an exponent would have a digit or a sign
        cases cs with
        | nil => rcases hc with rfl | rfl <;> contradiction
        | cons d ds =>
          have hdigit := hdigits c d ds rfl hc
          have hhyphen : d ≠ '-' := by
            rintro rfl
            exact hc.elim (hsigned c ds rfl).1 (hsigned c ds rfl).2
          rw [printName, List.flatMap_cons]
          split
          · next hd =>
            refine readExponent_stop c ⟨?_, hhyphen⟩ hdigit _
            rintro rfl
            cases hd
          · next hd =>
            have hhex : isHex d = false := by
              rw [Bool.eq_false_iff]
              exact fun hhex => hd (isNameChar_of_isHex hhex)
            obtain ⟨x, y, hescaped, -, -⟩ := spells_escaped hhex
            rw [hescaped]
            exact readExponent_stop c (by decide) rfl _
      · exact readExponent_letter (not_or.1 hc) _
    · -- an escape starts with a backslash
      rw [hprint]
      exact readExponent_letter (by decide) _

/-- A printed unit is read back behind its number, before a text that does not go on with
it. -/
theorem readName_printUnit {digits unit rest : Text} (hne : unit ≠ [])
    (hfaithful : isFaithfulUnit digits unit = true) (hrest : continuesName rest = false) :
    readName (printUnit unit ++ rest) = (unit, rest) ∧ startsIdent (printUnit unit ++ rest) = true
      ∧ endsNumber digits (printUnit unit ++ rest) = true := by
  have hsmall : Spells "\\65 ".toList 'e' := @spells_hex ['6', '5'] nofun (List.all_eq_true.1 rfl) (by decide)
  have hexponent : ∀ t, (readExponent ("\\65 ".toList ++ t)).1 = [] :=
    fun t => readExponent_letter (by decide) _
  simp only [isFaithfulUnit, Bool.and_eq_true, bne_iff_ne, Bool.not_eq_true', Bool.or_eq_true,
    Bool.and_eq_false_iff] at hfaithful
  obtain ⟨⟨hcapital, hsigned⟩, hdigit⟩ := hfaithful
  unfold printUnit
  split
  · rw [hsmall.readName, readName_stop hrest]
    exact ⟨rfl, rfl, endsNumber_of_startsIdent rfl (Or.inr (hexponent rest))⟩
  · exact absurd rfl hcapital
  · next cs =>
    rw [List.append_assoc, hsmall.readName, readName_printName ('-' :: cs) hrest]
    exact ⟨rfl, rfl, endsNumber_of_startsIdent rfl (Or.inr (hexponent _))⟩
  · cases hsigned
  · next hsmall' hcapital' hsigned' hsigned'' =>
    obtain ⟨hread, hident⟩ := readName_printIdent hne hrest
    refine ⟨hread, hident, endsNumber_of_startsIdent hident (hdigit.imp_right fun hdigit => ?_)⟩
    refine readExponent_printIdent hne hsmall' hcapital ?_ ?_ rest
    · rintro e cs rfl
      exact ⟨fun he => hsigned' cs (by rw [he]), fun he => hsigned'' cs (by rw [he])⟩
    · rintro e d cs rfl he
      exact hdigit.resolve_left (by rcases he with rfl | rfl <;> simp)

/-! ## Strings and URLs -/

/-- A printed string is read back. -/
theorem readString_printString (value rest : Text) :
    readString '"' (value.flatMap printStringChar ++ '"' :: rest) = (value, .closed, rest) := by
  induction value with
  | nil => exact readString_quote
  | cons c cs ih =>
    have hspelled : ∀ {text : Text}, Spells text c →
        readString '"' (text ++ (cs.flatMap printStringChar ++ '"' :: rest))
          = (c :: cs, .closed, rest) := by
      intro text htext
      rw [htext.readString _ (by decide), ih]
    rw [List.flatMap_cons, List.append_assoc, printStringChar]
    split
    · next hc =>
      refine hspelled (spells_char ?_ ?_) <;> rcases hc with rfl | rfl <;> decide
    · next hc =>
      rw [not_or] at hc
      cases hcontrol : controlEscape? c with
      | some text => exact hspelled (spells_control hcontrol)
      | none =>
        have hread := @readString_char '"' c (cs.flatMap printStringChar ++ '"' :: rest) hc.1
          (ne_newline_of_controlEscape? hcontrol) hc.2
        rw [ih] at hread
        exact hread

/-- Is a URL printed as one?  Control characters are printed as they are, which breaks
it. -/
def isFaithfulUrl (value : Text) : Bool :=
  value.all fun c => !breaksUrl c || Text.isQuote c || c == '('

/-- A character of a URL is printed as it is, if it may stand in one, or as an escape. -/
theorem printUrlChar_cases {c : Char} (hc : (!breaksUrl c || Text.isQuote c || c == '(') = true) :
    (printUrlChar c = [c] ∧ c ≠ ')' ∧ isSpace c = false ∧ c ≠ '\\' ∧ breaksUrl c = false)
      ∨ Spells (printUrlChar c) c := by
  unfold printUrlChar
  split_ifs with hspecial htab
  · refine Or.inr (spells_char ?_ ?_) <;>
      rcases hspecial with rfl | rfl | rfl | rfl | rfl | rfl <;> decide
  · subst htab
    exact Or.inr (@spells_hex ['9'] nofun (List.all_eq_true.1 rfl) (by decide))
  · cases hcontrol : controlEscape? c with
    | some text => exact Or.inr (spells_control hcontrol)
    | none =>
      have hnewline := ne_newline_of_controlEscape? hcontrol
      simp only [not_or] at hspecial
      obtain ⟨hsingle, hdouble, hescape, hspace, hopen, hclose⟩ := hspecial
      refine Or.inl ⟨rfl, hclose, ?_, hescape, ?_⟩
      · simp [isSpace, hspace, hnewline, htab]
      · simpa [Text.isQuote, hsingle, hdouble, hopen] using hc

/-- A printed URL is read back. -/
theorem readUrlValue_printUrl {value : Text} (h : isFaithfulUrl value = true) (rest : Text) :
    readUrlValue (value.flatMap printUrlChar ++ ')' :: rest) = (value, .closed, rest) := by
  induction value with
  | nil => rw [List.flatMap_nil, List.nil_append, readUrlValue.eq_def]; rfl
  | cons c cs ih =>
    simp only [isFaithfulUrl, List.all_cons, Bool.and_eq_true] at h
    rw [List.flatMap_cons, List.append_assoc]
    rcases printUrlChar_cases h.1 with ⟨hprint, hclose, hspace, hescape, hbreaks⟩ | hspells
    · rw [hprint, List.singleton_append, readUrlValue.eq_def]
      simp only [if_neg hclose, hspace, startsEscape_eq_false _ hescape, hbreaks, ih h.2,
        Bool.false_eq_true, if_false]
    · rw [hspells.readUrlValue, ih h.2]

/-- A printed URL starts with neither whitespace nor a quote. -/
theorem head_printUrl {value : Text} (h : isFaithfulUrl value = true) (rest : Text) :
    ∃ c cs, value.flatMap printUrlChar ++ ')' :: rest = c :: cs ∧ isSpace c = false
      ∧ Text.isQuote c = false := by
  cases value with
  | nil => exact ⟨')', rest, rfl, rfl, rfl⟩
  | cons c cs =>
    simp only [isFaithfulUrl, List.all_cons, Bool.and_eq_true] at h
    rw [List.flatMap_cons, List.append_assoc]
    rcases printUrlChar_cases h.1 with ⟨hprint, -, hspace, -, hbreaks⟩ | ⟨d, e, hprint, -, -⟩
    · refine ⟨c, _, by rw [hprint]; rfl, hspace, ?_⟩
      simp only [breaksUrl, Bool.or_eq_false_iff] at hbreaks
      simp [Text.isQuote, hbreaks]
    · exact ⟨'\\', _, by rw [hprint]; rfl, rfl, rfl⟩

/-! ## Normal texts -/

theorem isNormal_of_isNameChar {c : Char} (h : isNameChar c = true) : isNormal c = true := by
  have hne : ∀ d, isNameChar d = false → c ≠ d := by
    rintro d hd rfl
    rw [h] at hd
    cases hd
  simp [isNormal, hne '\r' rfl, hne '\x0c' rfl, hne '\x00' rfl]

/-- A text that escapes line controls is normal. -/
theorem isNormal_getD {c : Char} (hc : c ≠ '\x00') {plain : Text}
    (hplain : ∀ d ∈ plain, d = c ∨ isNormal d = true) :
    ∀ d ∈ (controlEscape? c).getD plain, isNormal d = true := by
  unfold controlEscape?
  split_ifs with hnewline hreturn hfeed
  · simp [isNormal]
  · simp [isNormal]
  · simp [isNormal]
  · intro d hd
    rcases hplain d hd with rfl | hd
    · simp [isNormal, hreturn, hfeed, hc]
    · exact hd

theorem isNormal_escaped {c : Char} (hc : c ≠ '\x00') : ∀ d ∈ escaped c, isNormal d = true :=
  isNormal_getD hc (by simp [isNormal])

theorem isNormal_printName {name : Text} (h : '\x00' ∉ name) :
    ∀ d ∈ printName name, isNormal d = true := by
  intro d hd
  obtain ⟨c, hc, hd⟩ := List.mem_flatMap.1 hd
  split at hd
  · next hchar =>
    rw [List.mem_singleton.1 hd]
    exact isNormal_of_isNameChar hchar
  · exact isNormal_escaped (fun hnul => h (hnul ▸ hc)) d hd

theorem isNormal_hexUpper (n : Nat) : ∀ d ∈ hexUpper n, isNormal d = true :=
  fun d hd => isNormal_of_isNameChar (isNameChar_of_isHex ((hexUpper_spec n).2.1 d hd))

theorem isNormal_printFirst {c : Char} (hc : c ≠ '\x00') : ∀ d ∈ printFirst c, isNormal d = true := by
  unfold printFirst
  split_ifs with hstart hdigit
  · exact List.forall_mem_singleton.2 (isNormal_of_isNameChar (isNameChar_of_isNameStart hstart))
  · rw [List.forall_mem_append, List.forall_mem_cons]
    exact ⟨⟨rfl, isNormal_hexUpper c.toNat⟩, List.all_eq_true.1 rfl⟩
  · exact isNormal_escaped hc

theorem isNormal_printIdent {name : Text} (h : '\x00' ∉ name) :
    ∀ d ∈ printIdent name, isNormal d = true := by
  unfold printIdent
  split
  · exact nofun
  · exact List.all_eq_true.1 rfl
  · next cs =>
    have hcs : '\x00' ∉ cs := fun hmem => h (by simp [hmem])
    rw [List.forall_mem_cons, List.forall_mem_cons]
    exact ⟨rfl, rfl, isNormal_printName hcs⟩
  · next c cs _ =>
    rw [List.mem_cons, List.mem_cons, not_or, not_or] at h
    rw [List.forall_mem_append, List.forall_mem_cons]
    exact ⟨⟨rfl, isNormal_printFirst (Ne.symm h.2.1)⟩, isNormal_printName h.2.2⟩
  · next c cs _ _ _ =>
    rw [List.mem_cons, not_or] at h
    rw [List.forall_mem_append]
    exact ⟨isNormal_printFirst (Ne.symm h.1), isNormal_printName h.2⟩

theorem isNormal_printUnit {unit : Text} (h : '\x00' ∉ unit) :
    ∀ d ∈ printUnit unit, isNormal d = true := by
  have hescape : ∀ d ∈ "\\65 ".toList, isNormal d = true := List.all_eq_true.1 rfl
  have hsigned : ∀ {e : Char} {cs : Text}, '\x00' ∉ e :: cs →
      ∀ d ∈ "\\65 ".toList ++ printName cs, isNormal d = true := by
    intro e cs hcs
    rw [List.forall_mem_append]
    exact ⟨hescape, isNormal_printName fun hmem => hcs (List.mem_cons_of_mem e hmem)⟩
  unfold printUnit
  split
  · exact hescape
  · exact hescape
  · exact hsigned h
  · exact hsigned h
  · exact isNormal_printIdent h

theorem isNormal_flatMap {value : Text} {print : Char → Text} (h : '\x00' ∉ value)
    (hprint : ∀ c, c ≠ '\x00' → ∀ d ∈ print c, isNormal d = true) :
    ∀ d ∈ value.flatMap print, isNormal d = true := by
  intro d hd
  obtain ⟨c, hc, hd⟩ := List.mem_flatMap.1 hd
  exact hprint c (fun hnul => h (hnul ▸ hc)) d hd

theorem isNormal_printStringChar {c : Char} (hc : c ≠ '\x00') :
    ∀ d ∈ printStringChar c, isNormal d = true := by
  unfold printStringChar
  split
  · next hspecial => rcases hspecial with rfl | rfl <;> exact List.all_eq_true.1 rfl
  · exact isNormal_getD hc (by simp)

theorem isNormal_printUrlChar {c : Char} (hc : c ≠ '\x00') :
    ∀ d ∈ printUrlChar c, isNormal d = true := by
  unfold printUrlChar
  split_ifs with hspecial htab
  · rcases hspecial with rfl | rfl | rfl | rfl | rfl | rfl <;> exact List.all_eq_true.1 rfl
  · exact List.all_eq_true.1 rfl
  · exact isNormal_getD hc (by simp)

theorem isNormal_printString {value : Text} (h : '\x00' ∉ value) (closed : Bool) :
    ∀ d ∈ printString value closed, isNormal d = true := by
  rw [printString, List.forall_mem_append, List.forall_mem_cons]
  refine ⟨⟨rfl, isNormal_flatMap h fun _ => isNormal_printStringChar⟩, ?_⟩
  cases closed <;> exact List.all_eq_true.1 rfl

theorem isNormal_printUrl {value : Text} (h : '\x00' ∉ value) (closed : Bool) :
    ∀ d ∈ printUrl value closed, isNormal d = true := by
  rw [printUrl, List.forall_mem_append, List.forall_mem_append]
  refine ⟨⟨List.all_eq_true.1 rfl, isNormal_flatMap h fun _ => isNormal_printUrlChar⟩, ?_⟩
  cases closed <;> exact List.all_eq_true.1 rfl

theorem isNormal_printRange (first last : Nat) :
    ∀ d ∈ printRange first last, isNormal d = true := by
  unfold printRange
  split
  · rw [List.forall_mem_cons, List.forall_mem_cons]
    exact ⟨rfl, rfl, isNormal_hexUpper first⟩
  · rw [List.forall_mem_append, List.forall_mem_cons, List.forall_mem_cons, List.forall_mem_cons]
    exact ⟨⟨rfl, rfl, isNormal_hexUpper first⟩, rfl, isNormal_hexUpper last⟩

theorem isNormal_literal {t : Text} (h : IsLiteralText t) : ∀ d ∈ t, isNormal d = true := by
  cases h with
  | char hc =>
    simp only [isLiteralChar, Bool.and_eq_true] at hc
    exact List.forall_mem_singleton.2 hc.2
  | arrow => exact List.all_eq_true.1 rfl
  | markup => exact List.all_eq_true.1 rfl
  | bars => exact List.all_eq_true.1 rfl
  | equals hc =>
    simp only [Lexeme.joinsEquals, Bool.or_eq_true, beq_iff_eq] at hc
    rcases hc with (((rfl | rfl) | rfl) | rfl) | rfl <;> exact List.all_eq_true.1 rfl

/-- The text of a leaf is a normal one. -/
theorem isNormal_printLeaf {l : Leaf} (h : l.WellFormed) (hfault : l.fault? = none) :
    ∀ d ∈ printLeaf l, isNormal d = true := by
  cases l with
  | whitespace t =>
    intro d hd
    have hspace := h.2 d hd
    simp only [isSpace, Bool.or_eq_true, beq_iff_eq] at hspace
    rcases hspace with (rfl | rfl) | rfl <;> rfl
  | ident name => exact isNormal_printIdent h.2
  | atKeyword name => exact List.forall_mem_cons.2 ⟨rfl, isNormal_printIdent h.2⟩
  | hash name isIdentifier =>
    refine List.forall_mem_cons.2 ⟨rfl, ?_⟩
    split
    · exact isNormal_printIdent h.1.2
    · exact isNormal_printName h.1.2
  | string value closed => exact isNormal_printString h closed
  | url value closed => exact isNormal_printUrl h closed
  | number digits => exact h.1
  | percentage digits =>
    exact List.forall_mem_append.2 (And.intro h.1 (List.forall_mem_singleton.2 rfl))
  | dimension digits unit =>
    exact List.forall_mem_append.2 (And.intro h.1.1 (isNormal_printUnit h.2.2))
  | unicodeRange first last => exact isNormal_printRange first last
  | literal t => exact isNormal_literal h
  | badString => cases hfault
  | badUrl => cases hfault
  | unmatched bracket => cases hfault

end Component

open Component

/-- Is the leaf printed as a text that is read back as itself? -/
def Leaf.isFaithful : Leaf → Bool
  | .dimension digits unit => isFaithfulUnit digits unit
  | .url value _ => isFaithfulUrl value
  | _ => true

/-! ## Lexemes of printed texts -/

namespace Lexeme

theorem isSpace_of_startsIdent {c : Char} {cs : Text} (h : startsIdent (c :: cs) = true) :
    isSpace c = false := by
  rcases head_of_startsIdent h with hc | rfl | rfl
  · rw [Bool.eq_false_iff]
    intro hspace
    simp only [isSpace, Bool.or_eq_true, beq_iff_eq] at hspace
    rcases hspace with (rfl | rfl) | rfl <;> cases hc
  · rfl
  · rfl

/-- What starts like an identifier is read by its name, where neither a range nor the end
of a markup comment takes over from it. -/
theorem unclaimed_of_readName {c : Char} {cs name rest : Text}
    (hread : readName (c :: cs) = (name, rest)) (hident : startsIdent (c :: cs) = true)
    (hplus : rest.head? ≠ some '+') (harrow : rest.head? ≠ some '>') : Unclaimed c cs := by
  refine ⟨isSpace_of_startsIdent hident, readRange?_none fun hc => ?_, ?_⟩
  · -- a plus would have ended the name
    have hchar : isNameChar c = true := by rcases hc with rfl | rfl <;> rfl
    unfold startsRange
    split
    · rw [readName_char hchar, readName_stop rfl] at hread
      obtain ⟨-, rfl⟩ := Prod.mk.inj hread
      exact absurd rfl hplus
    · rfl
  · rintro ⟨rfl, hstart⟩
    obtain ⟨after, rfl⟩ := List.isPrefixOf_iff_prefix.1 hstart
    rw [List.cons_append, List.cons_append, readName_char rfl, readName_char rfl,
      readName_stop rfl] at hread
    obtain ⟨-, rfl⟩ := Prod.mk.inj hread
    exact absurd rfl harrow

theorem Called.next_eq {c : Char} {cs name after rest : Text} {lexeme : Lexeme}
    (h : Called (c :: cs) lexeme rest) (hread : readName (c :: cs) = (name, after))
    (hident : startsIdent (c :: cs) = true) (hplus : after.head? ≠ some '+')
    (harrow : after.head? ≠ some '>') : next c cs = (lexeme, rest) :=
  (Scanned.name (unclaimed_of_readName hread hident hplus harrow) hident h).next_eq

theorem next_url {c : Char} {cs name after value rest : Text}
    (hread : readName (c :: cs) = (name, '(' :: after)) (hident : startsIdent (c :: cs) = true)
    (hname : isNamed "url" name = true) (hspace : after.head?.any isSpace = false)
    (hquote : startsQuote after = false) (hvalue : readUrlValue after = (value, .closed, rest)) :
    next c cs = (.leaf (.url value true), rest) := by
  have hdrop : after.dropWhile isSpace = after := dropWhile_run (List.forall_mem_nil _) hspace
  have hurl : readUrl after = (.url value true, rest) := by rw [readUrl, hdrop, hvalue]
  rw [← hdrop] at hquote
  exact Called.next_eq (.url hread hname hquote hurl) hread hident (by simp) (by simp)

end Lexeme

namespace Stretch

/-- What is read before one text is read wherever it ends. -/
theorem reads_of_next {text rest : Text} {lexeme : Lexeme} (hrest : rest ≠ []) (hne : text ≠ [])
    (h : ∀ c u, text = c :: u → Lexeme.next c (u ++ rest) = (lexeme, rest)) :
    Reads ⟨text, lexeme⟩ := by
  obtain ⟨c, u, rfl⟩ := List.exists_cons_of_ne_nil hne
  obtain ⟨u', hu, hlocal⟩ := Lexeme.next_local (h c u rfl) hrest
  obtain rfl := List.append_cancel_right hu
  exact fun rest' hstops => ⟨c, u, rfl, hlocal rest' hstops⟩

theorem printIdent_ne_nil {name : Text} (h : name ≠ []) : printIdent name ≠ [] := by
  intro hnil
  obtain ⟨-, hident⟩ := @readName_printIdent name [] h rfl
  rw [hnil] at hident
  cases hident

theorem reads_ident {name : Text} (h : name ≠ []) : Reads ⟨printIdent name, .leaf (.ident name)⟩ := by
  obtain ⟨hread, hident⟩ := @readName_printIdent name [';'] h rfl
  refine reads_of_next (List.cons_ne_nil ';' []) (printIdent_ne_nil h) fun c u htext => ?_
  rw [htext] at hread hident
  rw [List.cons_append] at hread hident
  exact Lexeme.Called.next_eq (.ident hread (by simp)) hread hident (by simp) (by simp)

theorem reads_function {name : Text} (h : name ≠ []) :
    Reads ⟨printIdent name ++ ['('], .function name⟩ := by
  obtain ⟨hread, hident⟩ := @readName_printIdent name ['(', '"'] h rfl
  -- what stands before a quote is a function, whatever its name
  refine reads_of_next (List.cons_ne_nil '"' []) (by simp) fun c u htext => ?_
  have hsplit : printIdent name ++ ['(', '"'] = c :: (u ++ ['"']) := by
    rw [← List.cons_append, ← htext, List.append_assoc]
    rfl
  rw [hsplit] at hread hident
  exact Lexeme.Called.next_eq (.function hread fun _ => rfl) hread hident (by simp) (by simp)

theorem reads_url {value : Text} (h : isFaithfulUrl value = true) :
    Reads ⟨printUrl value true, .leaf (.url value true)⟩ := by
  have hread : ∀ t, readName ("url".toList ++ '(' :: t) = ("url".toList, '(' :: t) :=
    fun t => readName_printName "url".toList rfl
  obtain ⟨c, cs, htext, hspace, hquote⟩ := head_printUrl h [';']
  have hvalue := readUrlValue_printUrl h [';']
  refine reads_of_next (List.cons_ne_nil ';' []) (by simp [printUrl]) fun d u hprint => ?_
  have hsplit : "url".toList ++ '(' :: (value.flatMap printUrlChar ++ [')', ';']) = d :: (u ++ [';']) := by
    have hsame := congrArg (· ++ [';']) hprint
    simpa [printUrl] using hsame
  have hread' := hread (value.flatMap printUrlChar ++ [')', ';'])
  have hident : startsIdent (d :: (u ++ [';'])) = true := by
    rw [← hsplit]
    rfl
  rw [hsplit] at hread'
  rw [htext] at hread' hvalue
  exact Lexeme.next_url hread' hident rfl hspace hquote hvalue

theorem reads_string (value : Text) : Reads ⟨printString value true, .leaf (.string value true)⟩ := by
  have hpunctuation : IsPunctuation '"' := ⟨rfl, rfl, rfl, by decide⟩
  refine reads_of_next (List.cons_ne_nil ';' []) (List.cons_ne_nil _ _) fun c u htext => ?_
  obtain ⟨rfl, hu⟩ := List.cons.inj htext
  have hread := readString_printString value [';']
  have hsplit : u ++ [';'] = value.flatMap printStringChar ++ ['"', ';'] := by
    rw [← hu]
    exact List.append_assoc ..
  rw [hsplit]
  exact Lexeme.Punctuated.next_eq (.string rfl hread) hpunctuation

theorem reads_atKeyword {name : Text} (h : name ≠ []) :
    Reads ⟨'@' :: printIdent name, .leaf (.atKeyword name)⟩ := by
  have hpunctuation : IsPunctuation '@' := ⟨rfl, rfl, rfl, by decide⟩
  obtain ⟨hread, hident⟩ := @readName_printIdent name [';'] h rfl
  refine reads_of_next (List.cons_ne_nil ';' []) (List.cons_ne_nil _ _) fun c u htext => ?_
  obtain ⟨rfl, rfl⟩ := List.cons.inj htext
  exact Lexeme.Punctuated.next_eq (.atKeyword rfl hident hread) hpunctuation

/-- A name with a digit or a hyphen first is printed as the start of no identifier. -/
theorem startsIdent_printName {name rest : Text} (h : IsBareName name)
    (hrest : startsIdent ('-' :: rest) = false) : startsIdent (printName name ++ rest) = false
      ∧ continuesName (printName name ++ rest) = true := by
  have hdigit : ∀ {c : Char}, c.isDigit = true → isNameChar c = true ∧ isNameStart c = false ∧ c ≠ '-'
      ∧ ∀ t, startsEscape (c :: t) = false := by
    intro c hc
    refine ⟨by simp [isNameChar, hc], isNameStart_of_isDigit hc, ?_, fun t => ?_⟩
    · rintro rfl
      cases hc
    · refine startsEscape_eq_false t ?_
      rintro rfl
      cases hc
  have hhyphen : isNameChar '-' = true := rfl
  rcases h with rfl | ⟨c, cs, hc, rfl | rfl⟩
  · exact ⟨hrest, rfl⟩
  · obtain ⟨hchar, hstart, hne, hescape⟩ := hdigit hc
    rw [printName, List.flatMap_cons, if_pos hchar, List.append_assoc, List.singleton_append]
    simp [startsIdent, continuesName, hstart, hne, hescape, hchar]
  · obtain ⟨hchar, hstart, hne, hescape⟩ := hdigit hc
    rw [printName, List.flatMap_cons, if_pos hhyphen, List.flatMap_cons, if_pos hchar,
      List.append_assoc, List.append_assoc, List.singleton_append, List.singleton_append]
    have hsign := startsEscape_eq_false
      (c :: (cs.flatMap (fun c => if isNameChar c then [c] else escaped c) ++ rest))
      (show '-' ≠ '\\' by decide)
    simp [startsIdent, continuesName, hstart, hne, hescape, hhyphen, hsign,
      show isNameStart '-' = false from rfl]

theorem reads_hash {name : Text} {isIdentifier : Bool} (h : name ≠ [])
    (hbare : isIdentifier = false → IsBareName name) :
    Reads ⟨printLeaf (.hash name isIdentifier), .leaf (.hash name isIdentifier)⟩ := by
  have hpunctuation : IsPunctuation '#' := ⟨rfl, rfl, rfl, by decide⟩
  -- the name is read back, and starts an identifier if it did before
  have hname : ∃ text, printLeaf (.hash name isIdentifier) = '#' :: text
      ∧ readName (text ++ [';']) = (name, [';']) ∧ startsIdent (text ++ [';']) = isIdentifier
      ∧ continuesName (text ++ [';']) = true := by
    cases isIdentifier with
    | true =>
      obtain ⟨hread, hident⟩ := @readName_printIdent name [';'] h rfl
      exact ⟨_, rfl, hread, hident, continuesName_of_startsIdent hident⟩
    | false =>
      obtain ⟨hident, hname⟩ := @startsIdent_printName name [';'] (hbare rfl) rfl
      exact ⟨_, rfl, readName_printName name rfl, hident, hname⟩
  obtain ⟨text, hprint, hread, hident, hcontinues⟩ := hname
  rw [hprint]
  refine reads_of_next (List.cons_ne_nil ';' []) (List.cons_ne_nil _ _) fun c u htext => ?_
  obtain ⟨rfl, rfl⟩ := List.cons.inj htext
  rw [← hident]
  exact Lexeme.Punctuated.next_eq (.hash rfl hcontinues hread) hpunctuation

/-- A number is found before every text that does not go on with it. -/
theorem next_number {digits x rest : Text} {lexeme : Lexeme} (h : IsNumber digits)
    (hends : endsNumber digits x = true) (hmeasured : Lexeme.Measured digits x lexeme rest)
    {c : Char} {u : Text} (hcons : digits = c :: u) : Lexeme.next c (u ++ x) = (lexeme, rest) := by
  have hread := h.numeral.read hends
  obtain ⟨hident, harrow⟩ := h.numeral.not_startsIdent x
  obtain ⟨c', u', hcons', hc⟩ := h.numeral.exists_head
  subst hcons
  obtain ⟨rfl, rfl⟩ := List.cons.inj hcons'
  have hspace : Component.isSpace c = false := by
    rw [Bool.eq_false_iff]
    intro hspace
    -- no number starts with a space
    simp only [Component.isSpace, Bool.or_eq_true, beq_iff_eq] at hspace
    rcases hspace with (rfl | rfl) | rfl <;> exact absurd hc (by decide)
  exact (Lexeme.Scanned.number
    ⟨hspace, readRange?_eq_none (Or.inl (isNameStart_of_not_startsIdent hident)), harrow c _ rfl⟩
    hident hread hmeasured).next_eq

theorem IsNumber.ne_nil {digits : Text} (h : IsNumber digits) : digits ≠ [] := by
  obtain ⟨-, t, rest, ht⟩ := h
  exact (readNumber?_append ht).2

theorem reads_number {digits : Text} (h : IsNumber digits) : Reads ⟨digits, .leaf (.number digits)⟩ := by
  refine reads_of_next (List.cons_ne_nil ';' []) (IsNumber.ne_nil h) fun c u htext => ?_
  have hends : endsNumber digits [';'] = true := by simp [endsNumber, readExponent]
  exact next_number h hends (.number rfl (by decide)) htext

theorem reads_percentage {digits : Text} (h : IsNumber digits) :
    Reads ⟨digits ++ ['%'], .leaf (.percentage digits)⟩ := by
  obtain ⟨d, ds, hcons⟩ := List.exists_cons_of_ne_nil (IsNumber.ne_nil h)
  refine reads_of_next (List.cons_ne_nil ';' []) (by simp) fun c u htext => ?_
  rw [hcons, List.cons_append] at htext
  obtain ⟨rfl, rfl⟩ := List.cons.inj htext
  have hends : endsNumber digits ['%', ';'] = true := by simp [endsNumber, readExponent]
  rw [List.append_assoc]
  exact next_number h hends (.percentage [';']) hcons

theorem reads_dimension {digits unit : Text} (h : IsNumber digits) (hunit : unit ≠ [])
    (hfaithful : isFaithfulUnit digits unit = true) :
    Reads ⟨digits ++ printUnit unit, .leaf (.dimension digits unit)⟩ := by
  obtain ⟨d, ds, hcons⟩ := List.exists_cons_of_ne_nil (IsNumber.ne_nil h)
  obtain ⟨hread, hident, hends⟩ := @readName_printUnit digits unit [';'] hunit hfaithful rfl
  refine reads_of_next (List.cons_ne_nil ';' []) (by simp [hcons]) fun c u htext => ?_
  rw [hcons, List.cons_append] at htext
  obtain ⟨rfl, rfl⟩ := List.cons.inj htext
  rw [List.append_assoc]
  exact next_number h hends (.dimension hident hread) hcons

theorem readRange_printRange {first last : Nat} (hfirst : first < 16 ^ 6) (hlast : last < 16 ^ 6) :
    ∃ d ds, printRange first last ++ [';'] = 'U' :: '+' :: d :: ds ∧ isHex d = true
      ∧ readRange (d :: ds) = (.unicodeRange first last, [';']) := by
  obtain ⟨hne, hdigits, hvalue⟩ := hexUpper_spec first
  obtain ⟨hne', hdigits', hvalue'⟩ := hexUpper_spec last
  obtain ⟨d, ds, hcons⟩ := List.exists_cons_of_ne_nil hne
  have hd : isHex d = true := hdigits d (by rw [hcons]; exact List.mem_cons_self)
  unfold printRange
  split
  · next heq =>
    subst heq
    refine ⟨d, ds ++ [';'], by rw [hcons]; rfl, hd, ?_⟩
    have hread := (IsRange.single hdigits (length_hexUpper hfirst)).read (show endsRange [';'] = true from rfl)
    rwa [hvalue, hcons] at hread
  · refine ⟨d, ds ++ '-' :: hexUpper last ++ [';'], by rw [hcons]; simp, hd, ?_⟩
    have hread := (IsRange.pair hdigits (length_hexUpper hfirst) hdigits' hne'
      (length_hexUpper hlast)).read (show endsRange [';'] = true from rfl)
    rwa [hvalue, hvalue', hcons] at hread

theorem reads_unicodeRange {first last : Nat} (hfirst : first < 16 ^ 6) (hlast : last < 16 ^ 6) :
    Reads ⟨printRange first last, .leaf (.unicodeRange first last)⟩ := by
  obtain ⟨d, ds, hprint, hd, hread⟩ := readRange_printRange hfirst hlast
  have hne : printRange first last ≠ [] := by
    unfold printRange
    split <;> simp
  refine reads_of_next (List.cons_ne_nil ';' []) hne fun c u htext => ?_
  rw [htext, List.cons_append] at hprint
  obtain ⟨rfl, hu⟩ := List.cons.inj hprint
  exact (Lexeme.Scanned.range (Or.inr rfl) hu (by simp [hd]) hread).next_eq

/-- A character that is a literal by itself is one before a semicolon. -/
theorem standsAlone_semicolon {c : Char} (hc : isLiteralChar c = true) :
    Lexeme.StandsAlone c [';'] := by
  simp only [isLiteralChar, Bool.and_eq_true, Bool.not_eq_true', Option.isNone_iff_eq_none] at hc
  obtain ⟨⟨⟨⟨-, hquote⟩, hopening⟩, hclosing⟩, -⟩ := hc
  exact ⟨fun _ => rfl, fun _ => rfl, hquote, hopening, hclosing, by simp, by simp [Text.startsWith],
    by simp, by simp⟩

theorem reads_literal {t : Text} (h : IsLiteralText t) : Reads ⟨t, .leaf (.literal t)⟩ := by
  have hpunctuation : ∀ {c : Char}, isLiteralChar c = true →
      ¬ (c = '\\' ∨ c = '-' ∨ c = '+' ∨ c = '.') → IsPunctuation c := by
    intro c hc hsign
    simp only [isLiteralChar, Bool.and_eq_true, Bool.not_eq_true'] at hc
    rw [not_or, not_or, not_or] at hsign
    exact ⟨hc.1.1.1.1.1.1, hc.1.1.1.1.1.2, hc.1.1.1.1.2, hsign.2.1, hsign.2.2.1, hsign.2.2.2, hsign.1⟩
  have hnext : ∀ {c : Char} {u : Text}, IsPunctuation c →
      Lexeme.Punctuated c (u ++ [';']) (.leaf (.literal (c :: u))) [';'] →
      Reads ⟨c :: u, .leaf (.literal (c :: u))⟩ := by
    intro c u hc hread
    refine reads_of_next (List.cons_ne_nil ';' []) (List.cons_ne_nil _ _) fun d v htext => ?_
    obtain ⟨rfl, rfl⟩ := List.cons.inj htext
    exact hread.next_eq hc
  cases h with
  | @char c hc =>
    by_cases hsign : c = '\\' ∨ c = '-' ∨ c = '+' ∨ c = '.'
    · exact fun rest hstops => ⟨c, [], rfl, Lexeme.next_sign hsign hstops⟩
    · exact hnext (hpunctuation hc hsign) (.char (standsAlone_semicolon hc))
  | arrow =>
    refine reads_of_next (List.cons_ne_nil ';' []) (List.cons_ne_nil _ _) fun c u htext => ?_
    obtain ⟨rfl, rfl⟩ := List.cons.inj htext
    exact (Lexeme.Scanned.arrow rfl rfl).next_eq
  | markup => exact hnext ⟨rfl, rfl, rfl, by decide⟩ (.markup rfl rfl)
  | bars => exact hnext ⟨rfl, rfl, rfl, by decide⟩ (.bars rfl rfl)
  | @equals c hc =>
    refine hnext ?_ (.equals hc rfl)
    simp only [Lexeme.joinsEquals, Bool.or_eq_true, beq_iff_eq] at hc
    rcases hc with (((rfl | rfl) | rfl) | rfl) | rfl <;> exact ⟨rfl, rfl, rfl, by decide⟩

/-- **Printed leaves are read back.** -/
theorem reads_leaf {l : Leaf} (h : l.WellFormed) (hfault : l.fault? = none)
    (hfaithful : l.isFaithful = true) : Reads ⟨printLeaf l, .leaf l⟩ := by
  cases l with
  | whitespace t => exact reads_space h.1 h.2
  | ident name => exact reads_ident h.1
  | atKeyword name => exact reads_atKeyword h.1
  | hash name isIdentifier => exact reads_hash h.1.1 h.2
  | string value closed =>
    cases closed with
    | true => exact reads_string value
    | false => cases hfault
  | url value closed =>
    cases closed with
    | true => exact reads_url hfaithful
    | false => cases hfault
  | number digits => exact reads_number h
  | percentage digits => exact reads_percentage h
  | dimension digits unit => exact reads_dimension h.1 h.2.1 hfaithful
  | unicodeRange first last => exact reads_unicodeRange h.1 h.2
  | literal t => exact reads_literal h
  | badString => cases hfault
  | badUrl => cases hfault
  | unmatched bracket => cases hfault

end Stretch

end NestedSheet
