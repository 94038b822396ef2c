import NestedSheet.Location
import NestedSheet.Proofs.Lexing
import NestedSheet.Proofs.Printing

/-!
# Values as identifiers

The location of a rule is written with identifiers, whatever stands in the values: every
character that is not plain gets a backslash, and a digit or a hyphen at the start is
written by its number.  Such an identifier is read back as the value
(`Location.readName_identifier`), as long as no newline is in it, which no backslash can
stand before.

The same holds for the identifier as a serializer prints it, also without the space that
ends an escape at its end (`readName_strip_printIdent`).

Main results: `Location.lexes_identifier`, `Location.identifier_encodes`,
`ofText_strip_printIdent`.
-/

namespace NestedSheet

open Component

/-! ## Escaped texts -/

theorem startsIdent_of_startsEscape {t : Text} (h : startsEscape t = true) :
    startsIdent t = true := by
  cases t with
  | nil => cases h
  | cons c cs => rw [startsIdent, h, Bool.or_true, Bool.true_or]

namespace Location

theorem isNameChar_of_isPlain {c : Char} (h : isPlain c = true) : isNameChar c = true := by
  simp only [isPlain, Bool.or_eq_true, beq_iff_eq] at h
  rcases h with (h | rfl) | rfl
  · exact isNameChar_of_isAlphanum h
  · rfl
  · rfl

/-- A character that is not plain is spelled by itself behind a backslash. -/
theorem spells_escape {c : Char} (hc : isPlain c = false) (hline : c ≠ '\n') : Spells ['\\', c] c := by
  refine spells_char ?_ hline
  rw [Bool.eq_false_iff]
  -- a hexadecimal digit behind the backslash would start a number, but is plain
  intro hhex
  rw [isPlain, isAlphanum_of_isHex hhex] at hc
  cases hc

/-- An escaped text is read back as a name, before a text that does not go on with it. -/
theorem readName_escapeAll {t rest : Text} (hline : '\n' ∉ t) (hrest : continuesName rest = false) :
    readName (escapeAll t ++ rest) = (t, rest) := by
  induction t with
  | nil => exact readName_stop hrest
  | cons c cs ih =>
    rw [List.mem_cons, not_or] at hline
    have hcs := ih hline.2
    rw [escapeAll, List.flatMap_cons, List.append_assoc, ← escapeAll]
    split
    · next hplain =>
      rw [List.singleton_append, readName_char (isNameChar_of_isPlain hplain), hcs]
    · next hplain =>
      rw [(spells_escape (Bool.eq_false_iff.2 hplain) (Ne.symm hline.1)).readName, hcs]

/-- The numbers of ASCII characters, in hexadecimal. -/
theorem hex4_spec : ∀ n < 128, hex4 n ≠ [] ∧ (hex4 n).all isHex = true ∧ (hex4 n).length ≤ 6
    ∧ hexValue (hex4 n) = n := by
  decide +kernel

theorem toNat_lt_of_digit_or_hyphen {c : Char} (hc : (c.isDigit || c == '-') = true) :
    c.toNat < 128 := by
  simp only [Char.isDigit, Bool.or_eq_true, Bool.and_eq_true, decide_eq_true_eq, beq_iff_eq,
    ge_iff_le, UInt32.le_iff_toNat_le] at hc
  rcases hc with ⟨-, hc⟩ | rfl
  · have hnine : '9'.val.toNat = 57 := rfl
    have hval : c.val.toNat = c.toNat := rfl
    omega
  · decide

/-- A digit or a hyphen is spelled by its number. -/
theorem spells_hex4 {c : Char} (hc : (c.isDigit || c == '-') = true) :
    Spells ('\\' :: hex4 c.toNat ++ [' ']) c := by
  have hlt : c.toNat < 128 := toNat_lt_of_digit_or_hyphen hc
  have hnul : c ≠ '\x00' := by
    rintro rfl
    cases hc
  obtain ⟨hne, hhex, hlength, hvalue⟩ := hex4_spec c.toNat hlt
  have hspells := spells_hex hne (List.all_eq_true.1 hhex) hlength
  rwa [hvalue, charOfCode_toNat hnul] at hspells

/-- **A value as an identifier is read back**, before a text that does not go on with it, and
starts like an identifier. -/
theorem readName_identifier {t rest : Text} (hne : t ≠ []) (hline : '\n' ∉ t)
    (hrest : continuesName rest = false) :
    readName (identifier t ++ rest) = (t, rest) ∧ startsIdent (identifier t ++ rest) = true := by
  obtain ⟨c, cs, rfl⟩ := List.exists_cons_of_ne_nil hne
  rw [List.mem_cons, not_or] at hline
  have hcs := readName_escapeAll hline.2 hrest
  -- a first character that is not plain has its backslash already, which `escapeFirst` leaves
  by_cases hplain : isPlain c = true
  · have hall : escapeAll (c :: cs) = c :: escapeAll cs := by
      rw [escapeAll, List.flatMap_cons, if_pos hplain]
      rfl
    rw [identifier, hall, escapeFirst]
    split
    · next hfirst =>
      -- the number of the first character, and the space that ends it
      have hspells := spells_hex4 hfirst
      have htext : '\\' :: hex4 c.toNat ++ ' ' :: escapeAll cs ++ rest
          = '\\' :: hex4 c.toNat ++ [' '] ++ (escapeAll cs ++ rest) := by simp
      rw [htext, hspells.readName, hcs]
      exact ⟨rfl, startsIdent_of_startsEscape (hspells.startsEscape _)⟩
    · next hfirst =>
      rw [List.cons_append, readName_char (isNameChar_of_isPlain hplain), hcs]
      refine ⟨rfl, ?_⟩
      -- what is plain and neither a digit nor a hyphen can start a name
      have hstart : isNameStart c = true := by
        have hchar := isNameChar_of_isPlain hplain
        simp only [isNameChar, Bool.or_eq_true] at hchar hfirst
        tauto
      simp [startsIdent, hstart]
  · have hall : escapeAll (c :: cs) = '\\' :: c :: escapeAll cs := by
      rw [escapeAll, List.flatMap_cons, if_neg hplain]
      rfl
    have hspells := spells_escape (Bool.eq_false_iff.2 hplain) (Ne.symm hline.1)
    rw [identifier, hall, escapeFirst, if_neg (by decide)]
    have hread := hspells.readName (escapeAll cs ++ rest)
    rw [hcs] at hread
    exact ⟨hread, startsIdent_of_startsEscape (hspells.startsEscape _)⟩

end Location

/-- An integer is written with digits and perhaps a hyphen. -/
theorem Text.ofInt_chars (n : Int) : ∀ c ∈ Text.ofInt n, (c.isDigit || c == '-') = true := by
  have hdigits : ∀ m, ∀ c ∈ Nat.toDigits 10 m, (c.isDigit || c == '-') = true := by
    intro m c hc
    rw [Nat.isDigit_of_mem_toDigits (by decide) (by decide) hc, Bool.true_or]
  unfold Text.ofInt
  split
  · exact List.forall_mem_cons.2 ⟨rfl, hdigits _⟩
  · exact hdigits _

/-! ## Identifiers in their place -/

theorem continuesName_of_endsWord {t : Text} (h : endsWord t = true) : continuesName t = false := by
  have hname := not_name_of_endsWord h
  cases t with
  | nil => rfl
  | cons c cs =>
    simp only [List.head?_cons, Option.any_some, Bool.or_eq_false_iff, beq_eq_false_iff_ne] at hname
    simp [continuesName, hname.1, startsEscape_eq_false cs hname.2]

/-- A text that is read as a name is one identifier, where it ends like a word. -/
theorem next_ident {c : Char} {cs name rest : Text} (hread : readName (c :: cs) = (name, rest))
    (hident : startsIdent (c :: cs) = true) (hrest : endsWord rest = true) :
    Lexeme.next c cs = (.leaf (.ident name), rest) := by
  obtain ⟨hopening, hplus⟩ := head_ne_of_endsWord hrest
  have harrow : rest.head? ≠ some '>' := by
    intro hhead
    rw [endsWord, hhead] at hrest
    cases hrest
  exact Lexeme.Called.next_eq (.ident hread hopening) hread hident hplus harrow

theorem lexes_ident {t name rest : Text} (hne : t ≠ [])
    (hread : readName (t ++ rest) = (name, rest) ∧ startsIdent (t ++ rest) = true)
    (hrest : endsWord rest = true) (p : Position) : Lexes p t [.leaf p (.ident name)] rest := by
  obtain ⟨c, cs, rfl⟩ := List.exists_cons_of_ne_nil hne
  exact lexes_leaf (next_ident hread.1 hread.2 hrest) rfl

namespace Location

theorem escapeAll_ne_nil {t : Text} (h : t ≠ []) : escapeAll t ≠ [] := by
  obtain ⟨c, cs, rfl⟩ := List.exists_cons_of_ne_nil h
  rw [escapeAll, List.flatMap_cons]
  split <;> exact List.append_ne_nil_of_left_ne_nil (List.cons_ne_nil _ _) _

theorem identifier_ne_nil {t : Text} (h : t ≠ []) : identifier t ≠ [] := by
  obtain ⟨c, cs, hcs⟩ := List.exists_cons_of_ne_nil (escapeAll_ne_nil h)
  rw [identifier, hcs, escapeFirst]
  split <;> exact List.cons_ne_nil _ _

/-- **A value as an identifier** is one component, where it ends like a word. -/
theorem lexes_identifier {t rest : Text} (hne : t ≠ []) (hline : '\n' ∉ t)
    (hrest : endsWord rest = true) (p : Position) : Lexes p (identifier t) [.leaf p (.ident t)] rest :=
  lexes_ident (identifier_ne_nil hne)
    (readName_identifier hne hline (continuesName_of_endsWord hrest)) hrest p

end Location

/-! ## Values that are told apart -/

namespace Location

/-- A text that can be written as an identifier: it is not empty, and nothing in it is lost when
line endings are made alike. -/
def IsEncodable (t : Text) : Prop :=
  t ≠ [] ∧ ∀ c ∈ t, c ≠ '\n' ∧ c ≠ '\r' ∧ c ≠ '\x0c' ∧ c ≠ '\x00'

instance (t : Text) : Decidable (IsEncodable t) :=
  @instDecidableAnd _ _ _ (List.decidableBAll _ t)

theorem isEncodable_ofInt (n : Int) : IsEncodable (Text.ofInt n) := by
  refine ⟨?_, fun c hc => ?_⟩
  · unfold Text.ofInt
    split
    · exact List.cons_ne_nil _ _
    · exact Nat.toDigits_ne_nil
  · have hdigit := Text.ofInt_chars n c hc
    refine ⟨?_, ?_, ?_, ?_⟩ <;> rintro rfl <;> cases hdigit

theorem mem_escapeAll {t : Text} {c : Char} (h : c ∈ escapeAll t) : c ∈ t ∨ c = '\\' := by
  rw [escapeAll, List.mem_flatMap] at h
  obtain ⟨d, hd, hc⟩ := h
  split at hc
  · exact Or.inl (List.mem_singleton.1 hc ▸ hd)
  · rcases List.mem_cons.1 hc with rfl | hc
    · exact Or.inr rfl
    · exact Or.inl (List.mem_singleton.1 hc ▸ hd)

/-- The characters of an identifier are those of the value and those of the escapes. -/
theorem mem_identifier {t : Text} {c : Char} (h : c ∈ identifier t) :
    c ∈ t ∨ c = '\\' ∨ c = ' ' ∨ isHex c = true := by
  have hescaped := @mem_escapeAll t c
  rw [identifier] at h
  cases hall : escapeAll t with
  | nil =>
    rw [hall] at h
    cases h
  | cons d ds =>
    rw [hall] at h hescaped
    rw [escapeFirst] at h
    split at h
    · next hd =>
      -- the first character became its number
      have hlt : d.toNat < 128 := toNat_lt_of_digit_or_hyphen hd
      have hhex := List.all_eq_true.1 (hex4_spec d.toNat hlt).2.1
      simp only [List.mem_cons, List.cons_append, List.mem_append] at h hescaped
      rcases h with rfl | h | rfl | h
      · exact Or.inr (Or.inl rfl)
      · exact Or.inr (Or.inr (Or.inr (hhex c h)))
      · exact Or.inr (Or.inr (Or.inl rfl))
      · exact (hescaped (Or.inr h)).imp_right Or.inl
    · exact (hescaped h).imp_right Or.inl

theorem isNormal_identifier {t : Text} (h : IsEncodable t) : ∀ c ∈ identifier t, isNormal c = true := by
  intro c hc
  rcases mem_identifier hc with hmem | rfl | rfl | hhex
  · obtain ⟨-, hreturn, hfeed, hnul⟩ := h.2 c hmem
    simp [isNormal, hreturn, hfeed, hnul]
  · rfl
  · rfl
  · exact isNormal_of_isNameChar (isNameChar_of_isAlphanum (isAlphanum_of_isHex hhex))

/-- A value as an identifier is one component. -/
theorem ofText_identifier {t : Text} (h : IsEncodable t) :
    Component.ofText (normalizeNewlines (identifier t)) = [.leaf {} (.ident t)] := by
  rw [normalizeNewlines_eq_self (isNormal_identifier h)]
  exact (lexes_identifier h.1 (fun hline => (h.2 _ hline).1 rfl) rfl {}).ofText

/-- **The encoding of values as identifiers is correct**: an integer, and every text that can be
written as an identifier, is read back as one identifier with the value, so two texts with the
same encoding are the same. -/
theorem identifier_encodes :
    (∀ n : Int, Component.ofText (normalizeNewlines (identifier (Text.ofInt n)))
      = [.leaf {} (.ident (Text.ofInt n))])
    ∧ (∀ t : Text, IsEncodable t →
      Component.ofText (normalizeNewlines (identifier t)) = [.leaf {} (.ident t)])
    ∧ ∀ t u : Text, IsEncodable t → IsEncodable u → identifier t = identifier u → t = u := by
  refine ⟨fun n => ofText_identifier (isEncodable_ofInt n), fun t ht => ofText_identifier ht, ?_⟩
  intro t u ht hu heq
  have hboth := (ofText_identifier ht).symm.trans (heq ▸ ofText_identifier hu)
  exact Leaf.ident.inj (Component.leaf.inj (List.cons.inj hboth).1).2

/-- A hyphen at the start, hexadecimal letters behind an escape, and a space at the end. -/
theorem identifier_encodes_hyphen : IsEncodable "-:a0 ".toList
    ∧ identifier "-:a0 ".toList = "\\002d \\:a0\\ ".toList
    ∧ Component.ofText (normalizeNewlines (identifier "-:a0 ".toList)) = [.leaf {} (.ident "-:a0 ".toList)] :=
  ⟨by decide, by decide, identifier_encodes.2.1 _ (by decide)⟩

end Location

/-! ## Identifiers that are printed and trimmed -/

section Printed

theorem escaped_of_not_blank {c : Char} (hc : Text.isBlank c = false) : escaped c = ['\\', c] := by
  have hcontrol : controlEscape? c = none := by
    unfold controlEscape?
    split_ifs with hline hreturn hfeed
    · rw [hline] at hc
      cases hc
    · rw [hreturn] at hc
      cases hc
    · rw [hfeed] at hc
      cases hc
    · rfl
  rw [escaped, hcontrol]
  rfl

/-- A printed name ends with its last character. -/
theorem getLast?_printName {name : Text} {c : Char} (hc : Text.isBlank c = false)
    (hlast : name.getLast? = some c) : (printName name).getLast? = some c := by
  obtain ⟨init, rfl⟩ := List.getLast?_eq_some_iff.1 hlast
  rw [printName, List.flatMap_append, List.flatMap_singleton]
  split
  · exact List.getLast?_concat
  · rw [escaped_of_not_blank hc]
    exact List.getLast?_append_of_ne_nil _ (List.cons_ne_nil _ _)

theorem head?_printFirst {c : Char} (hc : Text.isBlank c = false) :
    (printFirst c).head?.any (fun d => !Text.isBlank d) = true := by
  unfold printFirst
  split_ifs
  · simp [hc]
  · rfl
  · rw [escaped_of_not_blank hc]
    rfl

theorem getLast?_printFirst {c : Char} (hc : Text.isBlank c = false) (hdigit : c.isDigit = false) :
    (printFirst c).getLast? = some c := by
  unfold printFirst
  rw [if_neg (Bool.eq_false_iff.1 hdigit), escaped_of_not_blank hc]
  split <;> rfl

theorem Text.Trimmed.exists_last {t : Text} (h : Text.Trimmed t) :
    ∃ c, t.getLast? = some c ∧ Text.isBlank c = false := by
  have hlast := h.last
  cases hc : t.getLast? with
  | none =>
    rw [hc] at hlast
    cases hlast
  | some c =>
    rw [hc] at hlast
    exact ⟨c, rfl, by simpa using hlast⟩

/-- Characters that are printed behind a hyphen or at the start are trimmed as they were,
except if they end with the escape of a digit. -/
theorem trimmed_printFirst {lead cs : Text} {c : Char} (hlead : lead = [] ∨ lead = ['-'])
    (h : Text.Trimmed (lead ++ c :: cs)) :
    Text.Trimmed (lead ++ (printFirst c ++ printName cs)) ∨ cs = [] ∧ c.isDigit = true := by
  obtain ⟨last, hlast, hblank⟩ := h.exists_last
  rw [List.getLast?_append_of_ne_nil _ (List.cons_ne_nil c cs)] at hlast
  by_cases hdigit : cs = [] ∧ c.isDigit = true
  · exact Or.inr hdigit
  -- the last character is printed as it is or behind a backslash
  have hend : (printFirst c ++ printName cs).getLast? = some last := by
    cases cs with
    | nil =>
      obtain rfl : c = last := Option.some.inj hlast
      rw [printName, List.flatMap_nil, List.append_nil]
      exact getLast?_printFirst hblank (by simpa using hdigit)
    | cons d ds =>
      rw [List.getLast?_cons_cons] at hlast
      have hname := getLast?_printName hblank hlast
      rw [List.getLast?_append_of_ne_nil _ (by rintro hnil; rw [hnil] at hname; cases hname), hname]
  refine Or.inl ⟨?_, ?_⟩
  · rcases hlead with rfl | rfl
    · have hfirst := @head?_printFirst c (by simpa using h.first)
      cases hp : printFirst c with
      | nil =>
        rw [hp] at hfirst
        cases hfirst
      | cons d ds =>
        rw [hp] at hfirst
        exact hfirst
    · rfl
  · rw [List.getLast?_append_of_ne_nil _ (by rintro hnil; rw [hnil] at hend; cases hend), hend]
    simp [hblank]

/-- Of a trimmed value, the printed identifier is trimmed, or it ends with the space of the
escape of a digit. -/
theorem printIdent_cases {name : Text} (h : Text.Trimmed name) : Text.Trimmed (printIdent name)
    ∨ ∃ lead d, (lead = [] ∨ lead = ['-']) ∧ d.isDigit = true ∧ name = lead ++ [d]
      ∧ printIdent name = lead ++ ('\\' :: hexUpper d.toNat ++ [' ']) := by
  -- a digit that has nothing behind it is printed as a number and the space that ends it
  have hdigit : ∀ d : Char, d.isDigit = true →
      printFirst d ++ printName [] = '\\' :: hexUpper d.toNat ++ [' '] := by
    intro d hd
    rw [printName, List.flatMap_nil, List.append_nil, printFirst, isNameStart_of_isDigit hd, hd]
    rfl
  unfold printIdent
  split
  · cases h.first
  · exact Or.inl ⟨rfl, rfl⟩
  · -- two hyphens stand before a name, whose first character is not escaped by its number
    next cs =>
    obtain ⟨last, hlast, hblank⟩ := h.exists_last
    refine Or.inl ⟨rfl, ?_⟩
    cases cs with
    | nil => rfl
    | cons d ds =>
      rw [List.getLast?_cons_cons, List.getLast?_cons_cons] at hlast
      have hname := getLast?_printName hblank hlast
      have hend := List.getLast?_append_of_ne_nil ['-', '-']
        (show printName (d :: ds) ≠ [] by rintro hnil; rw [hnil] at hname; cases hname)
      rw [show '-' :: '-' :: printName (d :: ds) = ['-', '-'] ++ printName (d :: ds) from rfl, hend,
        hname]
      simp [hblank]
  · next c cs _ =>
    rcases @trimmed_printFirst ['-'] cs c (Or.inr rfl) h with htrimmed | ⟨rfl, hc⟩
    · exact Or.inl htrimmed
    · exact Or.inr ⟨['-'], c, Or.inr rfl, hc, rfl, by rw [← hdigit c hc]; rfl⟩
  · next c cs _ _ _ =>
    rcases @trimmed_printFirst [] cs c (Or.inl rfl) h with htrimmed | ⟨rfl, hc⟩
    · exact Or.inl htrimmed
    · exact Or.inr ⟨[], c, Or.inl rfl, hc, rfl, hdigit c hc⟩

/-- The escape of a digit, which is read without a space behind it at the end of a text. -/
theorem readEscape_digit : ∀ n < 58, 48 ≤ n → hexUpper n = ['3', Char.ofNat n]
    ∧ readEscape ['3', Char.ofNat n] = (Char.ofNat n, []) ∧ Text.isBlank (Char.ofNat n) = false := by
  decide +kernel

theorem hexUpper_digit {d : Char} (h : d.isDigit = true) : hexUpper d.toNat = ['3', d]
    ∧ readEscape ['3', d] = (d, []) ∧ Text.isBlank d = false := by
  simp only [Char.isDigit, Bool.and_eq_true, decide_eq_true_eq, ge_iff_le,
    UInt32.le_iff_toNat_le] at h
  have hzero : '0'.val.toNat = 48 := rfl
  have hnine : '9'.val.toNat = 57 := rfl
  have hval : d.val.toNat = d.toNat := rfl
  have hdigit := readEscape_digit d.toNat (by omega) (by omega)
  rwa [Char.ofNat_toNat] at hdigit

/-- **A printed identifier is read back without the blanks at its ends.** -/
theorem readName_strip_printIdent {name : Text} (h : Text.Trimmed name) :
    readName (Text.strip (printIdent name)) = (name, [])
      ∧ startsIdent (Text.strip (printIdent name)) = true := by
  rcases printIdent_cases h with htrimmed | ⟨lead, d, hlead, hd, rfl, hprint⟩
  · have hread := @readName_printIdent name [] h.ne_nil rfl
    rw [List.append_nil] at hread
    rw [htrimmed.strip_eq]
    exact hread
  · obtain ⟨hhex, hescape, hblank⟩ := hexUpper_digit hd
    -- without its space the number ends where the text ends
    have hread : readName ['\\', '3', d] = ([d], []) := by
      rw [readName_escape (by simp), hescape, readName]
    have hstrip : Text.strip (lead ++ ['\\', '3', d] ++ [' ']) = lead ++ ['\\', '3', d] := by
      refine @Text.Trimmed.strip_append [] _ [' '] ⟨?_, by simp [hblank]⟩ (List.forall_mem_nil _)
        (List.forall_mem_singleton.2 rfl)
      rcases hlead with rfl | rfl <;> rfl
    rw [hprint, hhex, show lead ++ ('\\' :: ['3', d] ++ [' ']) = lead ++ ['\\', '3', d] ++ [' '] by simp,
      hstrip]
    rcases hlead with rfl | rfl
    · exact ⟨hread, rfl⟩
    · exact ⟨by rw [List.singleton_append, readName_char rfl, hread]; rfl, rfl⟩

/-- A stored identifier is one component, without the blanks at its ends. -/
theorem ofText_strip_printIdent {name : Text} (h : Text.Trimmed name) (hnul : '\x00' ∉ name) :
    Component.ofText (normalizeNewlines (Text.strip (printIdent name))) = [.leaf {} (.ident name)] := by
  obtain ⟨hread, hident⟩ := readName_strip_printIdent h
  have hne : Text.strip (printIdent name) ≠ [] := by
    intro hnil
    rw [hnil] at hident
    cases hident
  -- newlines and form feeds are printed as numbers, so nothing is left to normalize
  have hnormal : ∀ c ∈ Text.strip (printIdent name), isNormal c = true :=
    fun c hc => isNormal_printIdent hnul c (Text.strip_subset _ hc)
  rw [normalizeNewlines_eq_self hnormal]
  refine (lexes_ident hne ?_ rfl {}).ofText
  rw [List.append_nil]
  exact ⟨hread, hident⟩

end Printed

end NestedSheet
