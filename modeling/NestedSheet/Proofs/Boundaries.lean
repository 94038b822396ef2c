import Mathlib.Data.List.TakeWhile
import NestedSheet.Proofs.Lexing

/-!
# Where names, strings and comments end

A name, a string, a URL or a comment is read up to the first character that cannot go
on with it.  Each of them is therefore the same in every text where it ends at the same
place: strings, URLs and comments bring their own end, and a name ends before every text
that brings no further character, no escape, and no space that its last escape would
take (`endsName`).

What is read is described by a grammar beside the scanner: `NameBody`, `StringBody` and
`UrlBody` say what a text may hold and what its value is, `StringEnd` and `UrlEnd` what stops
it.  A text that was read is of that form, and a text of that form is read.

Main results: `readName_local`, `startsIdent_local`, `readString_local`,
`readUrlValue_local`, `readComment_local`.
-/

namespace NestedSheet

namespace Component

/-! ## Runs of characters -/

section Runs

variable {p : Char → Bool}

/-- A run ends where the text behind it does not go on with it. -/
theorem takeWhile_run {run rest : Text} (hrun : ∀ c ∈ run, p c = true)
    (hrest : rest.head?.any p = false) : (run ++ rest).takeWhile p = run := by
  rw [List.takeWhile_append_of_pos hrun]
  cases rest with
  | nil => simp
  | cons c cs =>
    have hc : p c = false := by simpa using hrest
    simp [hc]

theorem dropWhile_run {run rest : Text} (hrun : ∀ c ∈ run, p c = true)
    (hrest : rest.head?.any p = false) : (run ++ rest).dropWhile p = rest := by
  rw [List.dropWhile_append_of_pos hrun]
  cases rest with
  | nil => rfl
  | cons c cs =>
    have hc : p c = false := by simpa using hrest
    simp [hc]

/-- A text is a run and a rest that does not go on with it. -/
theorem exists_takeWhile (p : Char → Bool) (t : Text) : ∃ run rest, t = run ++ rest
    ∧ (∀ c ∈ run, p c = true) ∧ rest.head?.any p = false := by
  refine ⟨t.takeWhile p, t.dropWhile p, List.takeWhile_append_dropWhile.symm, ?_, ?_⟩
  · exact fun c hc => List.mem_takeWhile_imp hc
  · cases hd : t.dropWhile p with
    | nil => rfl
    | cons c cs =>
      have hc := List.head?_dropWhile_not p t
      rw [hd] at hc
      simpa using hc

end Runs

/-! ## Escapes -/

theorem isHex_of_isSpace {c : Char} (h : isSpace c = true) : isHex c = false := by
  simp only [isSpace, Bool.or_eq_true, beq_iff_eq] at h
  rcases h with (rfl | rfl) | rfl <;> rfl

/-- A character that is no hexadecimal digit stands for itself. -/
theorem readEscape_char {c : Char} (hc : isHex c = false) (cs : Text) :
    readEscape (c :: cs) = (c, cs) := by
  simp [readEscape, hc]

theorem hexRun_append {digits rest : Text} (hdigits : ∀ c ∈ digits, isHex c = true)
    (hlength : digits.length ≤ 6) (hrest : digits.length = 6 ∨ rest.head?.any isHex = false) :
    ((digits ++ rest).take 6).takeWhile isHex = digits := by
  rw [List.take_append, List.take_of_length_le hlength, List.takeWhile_append_of_pos hdigits]
  rcases hrest with hsix | hrest
  · simp [hsix]
  · cases rest with
    | nil => simp
    | cons c cs =>
      have hc : isHex c = false := by simpa using hrest
      cases 6 - digits.length <;> simp [hc]

/-- Up to six hexadecimal digits stand for the character of their number, and the space
behind them belongs to them. -/
theorem readEscape_hex {digits rest : Text} (hne : digits ≠ [])
    (hdigits : ∀ c ∈ digits, isHex c = true) (hlength : digits.length ≤ 6)
    (hrest : digits.length = 6 ∨ rest.head?.any isHex = false) :
    readEscape (digits ++ rest) = (charOfCode (hexValue digits), skipSpace rest) := by
  unfold readEscape
  rw [hexRun_append hdigits hlength hrest]
  simp [hne]

theorem exists_hexRun (t : Text) : ∃ digits rest, t = digits ++ rest
    ∧ (∀ c ∈ digits, isHex c = true) ∧ digits.length ≤ 6
    ∧ (digits.length = 6 ∨ rest.head?.any isHex = false) := by
  obtain ⟨digits, rest, ht, hdigits, hrest⟩ := exists_takeWhile isHex (t.take 6)
  refine ⟨digits, t.drop digits.length, ?_, hdigits, ?_, ?_⟩
  · have hprefix : digits <+: t := (List.prefix_append digits rest).trans (ht ▸ List.take_prefix 6 t)
    exact (List.prefix_iff_eq_append.1 hprefix).symm
  · have hlength := congrArg List.length ht
    rw [List.length_append, List.length_take] at hlength
    omega
  · by_cases hsix : digits.length = 6
    · exact Or.inl hsix
    · right
      -- the run stopped inside of the first six characters, or at the end of the text
      have hdrop : (t.take 6).drop digits.length = rest := by rw [ht, List.drop_left]
      have hle : digits.length ≤ 6 := by
        have hlength := congrArg List.length ht
        rw [List.length_append, List.length_take] at hlength
        omega
      rw [List.drop_take] at hdrop
      cases hd : t.drop digits.length with
      | nil => rfl
      | cons c cs =>
        rw [hd, show 6 - digits.length = (5 - digits.length) + 1 by omega, List.take_succ_cons] at hdrop
        rw [← hdrop] at hrest
        exact hrest

theorem skipSpace_cons {c : Char} (hc : isSpace c = true) (cs : Text) : skipSpace (c :: cs) = cs := by
  rw [skipSpace, if_pos hc]

theorem skipSpace_stop {t : Text} (ht : t.head?.any isSpace = false) : skipSpace t = t := by
  cases t with
  | nil => rfl
  | cons c cs =>
    have hc : isSpace c = false := by simpa using ht
    rw [skipSpace, if_neg (by simp [hc])]

theorem skipSpace_cases (t : Text) : skipSpace t = t ∨ ∃ c, isSpace c = true ∧ t = c :: skipSpace t := by
  cases t with
  | nil => exact Or.inl rfl
  | cons c cs =>
    rw [skipSpace]
    split
    · next hc => exact Or.inr ⟨c, hc, rfl⟩
    · exact Or.inl rfl

/-- What an escape takes behind its backslash: a character, or hexadecimal digits with or
without a space. -/
inductive Escape : Text → Char → Prop
  | char {c : Char} (hc : isHex c = false) : Escape [c] c
  | digits {digits : Text} (hne : digits ≠ []) (hdigits : ∀ c ∈ digits, isHex c = true)
    (hlength : digits.length ≤ 6) : Escape digits (charOfCode (hexValue digits))
  | spaced {digits : Text} {space : Char} (hne : digits ≠ [])
    (hdigits : ∀ c ∈ digits, isHex c = true) (hlength : digits.length ≤ 6)
    (hspace : isSpace space = true) : Escape (digits ++ [space]) (charOfCode (hexValue digits))

/-- An escape of digits ends before a text that brings neither a further digit nor a
space. -/
def Escape.Stops (e rest : Text) : Prop :=
  (∀ c ∈ e, isHex c = true) →
    (e.length = 6 ∨ rest.head?.any isHex = false) ∧ rest.head?.any isSpace = false

theorem Escape.Stops.append {e t rest : Text} (h : Escape.Stops e (t ++ rest)) (ht : t ≠ [])
    (rest' : Text) : Escape.Stops e (t ++ rest') := by
  obtain ⟨c, cs, rfl⟩ := List.exists_cons_of_ne_nil ht
  exact h

theorem Escape.Stops.congr {e t t' : Text} (h : Escape.Stops e t) (hhead : t'.head? = t.head?) :
    Escape.Stops e t' := by
  intro hhex
  rw [hhead]
  exact h hhex

theorem head?_append_cons (t : Text) (c : Char) (after after' : Text) :
    (t ++ c :: after).head? = (t ++ c :: after').head? := by
  cases t <;> rfl

theorem Escape.ne_nil {e : Text} {c : Char} (h : Escape e c) : e ≠ [] := by
  cases h with
  | char _ => exact List.cons_ne_nil _ _
  | digits hne _ _ => exact hne
  | spaced _ _ _ _ => exact List.append_ne_nil_of_right_ne_nil _ (List.cons_ne_nil _ _)

theorem Escape.read {e rest : Text} {c : Char} (h : Escape e c) (hrest : Escape.Stops e rest) :
    readEscape (e ++ rest) = (c, rest) := by
  cases h with
  | char hc => exact readEscape_char hc rest
  | digits hne hdigits hlength =>
    obtain ⟨hhex, hspace⟩ := hrest hdigits
    rw [readEscape_hex hne hdigits hlength hhex, skipSpace_stop hspace]
  | @spaced digits space hne hdigits hlength hspace =>
    have hstop : ([space] ++ rest).head?.any isHex = false := isHex_of_isSpace hspace
    rw [List.append_assoc, readEscape_hex hne hdigits hlength (Or.inr hstop)]
    rw [List.singleton_append, skipSpace_cons hspace]

/-- Reading an escape takes the text of one. -/
theorem exists_escape {t : Text} (ht : t ≠ []) : ∃ e, t = e ++ (readEscape t).2
    ∧ Escape e (readEscape t).1 ∧ Escape.Stops e (readEscape t).2 := by
  obtain ⟨digits, rest, rfl, hdigits, hlength, hrest⟩ := exists_hexRun t
  rcases eq_or_ne digits [] with rfl | hne
  · obtain ⟨c, cs, rfl⟩ := List.exists_cons_of_ne_nil ht
    have hc : isHex c = false := by simpa using hrest
    rw [List.nil_append, readEscape_char hc]
    refine ⟨[c], rfl, .char hc, fun hall => ?_⟩
    rw [hall c List.mem_cons_self] at hc
    cases hc
  · rw [readEscape_hex hne hdigits hlength hrest]
    rcases skipSpace_cases rest with hskip | ⟨space, hspace, hskip⟩
    · rw [hskip]
      refine ⟨digits, rfl, .digits hne hdigits hlength, fun _ => ⟨hrest, ?_⟩⟩
      cases rest with
      | nil => rfl
      | cons c cs =>
        -- a space would have been skipped
        rw [List.head?_cons, Option.any_some, Bool.eq_false_iff]
        intro hc
        rw [skipSpace_cons hc] at hskip
        exact List.cons_ne_self c cs hskip.symm
    · refine ⟨digits ++ [space], ?_, .spaced hne hdigits hlength hspace, fun hall => ?_⟩
      · rw [List.append_assoc, List.singleton_append]
        exact congrArg (digits ++ ·) hskip
      · have hhex := hall space (List.mem_append_right _ List.mem_cons_self)
        rw [isHex_of_isSpace hspace] at hhex
        cases hhex

/-! ## Names -/

/-- Does a name go on with the text? -/
def continuesName (t : Text) : Bool :=
  t.head?.any isNameChar || startsEscape t

/-- Does the text of a name take a space that follows it, as the end of its last
escape? -/
def swallows (t : Text) : Bool :=
  (readName (t ++ [' '])).2.isEmpty

/-- Does the text of a name end before the text that follows it? -/
def endsName (t rest : Text) : Bool :=
  !continuesName rest && !(swallows t && rest.head?.any isSpace)

theorem isAlpha_iff {c : Char} : c.isAlpha = true ↔
    'A'.val ≤ c.val ∧ c.val ≤ 'Z'.val ∨ 'a'.val ≤ c.val ∧ c.val ≤ 'z'.val := by
  have hupper : c.isUpper = true ↔ 'A'.val ≤ c.val ∧ c.val ≤ 'Z'.val := decide_eq_true_iff
  have hlower : c.isLower = true ↔ 'a'.val ≤ c.val ∧ c.val ≤ 'z'.val :=
    Bool.and_eq_true_iff.trans (and_congr decide_eq_true_iff decide_eq_true_iff)
  exact Bool.or_eq_true_iff.trans (or_congr hupper hlower)

theorem isAlphanum_of_isHex {c : Char} (h : isHex c = true) : c.isAlphanum = true := by
  simp only [isHex, Bool.or_eq_true, Bool.and_eq_true, decide_eq_true_eq, Char.le_def] at h
  rw [Char.isAlphanum, Bool.or_eq_true, isAlpha_iff]
  rcases h with (h | h) | h
  · exact Or.inr h
  · exact Or.inl (Or.inr ⟨h.1, UInt32.le_trans h.2 (by decide)⟩)
  · exact Or.inl (Or.inl ⟨h.1, UInt32.le_trans h.2 (by decide)⟩)

theorem isNameChar_of_isAlphanum {c : Char} (h : c.isAlphanum = true) : isNameChar c = true := by
  simp only [Char.isAlphanum, Bool.or_eq_true] at h
  simp only [isNameChar, isNameStart, Bool.or_eq_true]
  rcases h with h | h
  · exact Or.inl (Or.inl (Or.inl (Or.inl h)))
  · exact Or.inl (Or.inr h)

theorem isNameChar_of_isHex {c : Char} (h : isHex c = true) : isNameChar c = true :=
  isNameChar_of_isAlphanum (isAlphanum_of_isHex h)

theorem isNameStart_of_isDigit {c : Char} (h : c.isDigit = true) : isNameStart c = false := by
  have hbounds : 48 ≤ c.toNat ∧ c.toNat ≤ 57 := by
    simp only [Char.isDigit, Bool.and_eq_true, decide_eq_true_eq, ge_iff_le,
      UInt32.le_iff_toNat_le] at h
    exact h
  have halpha : c.isAlpha = false := by
    simp only [← Bool.not_eq_true, isAlpha_iff, UInt32.le_iff_toNat_le]
    have hA : 'A'.val.toNat = 65 := rfl
    have ha : 'a'.val.toNat = 97 := rfl
    have hc : c.val.toNat = c.toNat := rfl
    omega
  have hunderscore : c ≠ '_' := by
    rintro rfl
    cases h
  simp only [isNameStart, halpha, beq_eq_false_iff_ne.2 hunderscore, Bool.or_self, Bool.false_or,
    decide_eq_false_iff_not]
  omega

/-- A character that an identifier starts with does not start a number, unless it is a sign. -/
theorem not_number_of_head {c : Char} (hc : isNameStart c = true ∨ c = '\\' ∨ c = '-') :
    c.isDigit = false ∧ c ≠ '.' := by
  rcases hc with hc | rfl | rfl
  · constructor
    · rw [Bool.eq_false_iff]
      intro hdigit
      rw [isNameStart_of_isDigit hdigit] at hc
      cases hc
    · rintro rfl
      cases hc
  · decide
  · decide

theorem isNameStart_of_not_startsIdent {c : Char} {cs : Text} (h : startsIdent (c :: cs) = false) :
    isNameStart c = false := by
  simp only [startsIdent, Bool.or_eq_false_iff] at h
  exact h.1.1

theorem readName_stop {t : Text} (ht : continuesName t = false) : readName t = ([], t) := by
  cases t with
  | nil => rw [readName]
  | cons c cs =>
    simp only [continuesName, List.head?_cons, Option.any_some, Bool.or_eq_false_iff] at ht
    rw [readName, if_neg (by simp [ht.1]), if_neg (by simp [ht.2])]

theorem readName_char {c : Char} (hc : isNameChar c = true) (cs : Text) :
    readName (c :: cs) = (c :: (readName cs).1, (readName cs).2) := by
  rw [readName, if_pos hc]

theorem startsEscape_iff {t : Text} :
    startsEscape t = true ↔ ∃ cs, t = '\\' :: cs ∧ cs.head? ≠ some '\n' := by
  unfold startsEscape
  split
  · simp
  · next cs hcs =>
    refine ⟨fun _ => ⟨cs, rfl, fun hhead => ?_⟩, fun _ => rfl⟩
    obtain ⟨ds, rfl⟩ := List.head?_eq_some_iff.1 hhead
    exact hcs ds rfl
  · next ht =>
    refine ⟨nofun, fun ⟨cs, hcs, _⟩ => absurd hcs (ht cs)⟩

/-- Two characters decide whether an escape starts. -/
theorem startsEscape_two (c d : Char) (ds ds' : Text) :
    startsEscape (c :: d :: ds) = startsEscape (c :: d :: ds') := by
  rw [Bool.eq_iff_iff, startsEscape_iff, startsEscape_iff]
  constructor <;>
  · rintro ⟨cs, heq, hhead⟩
    obtain ⟨rfl, rfl⟩ := List.cons.inj heq
    exact ⟨_, rfl, hhead⟩

theorem startsEscape_append {c : Char} (t : Text) (d : Char) (after : Text) :
    startsEscape (c :: (t ++ d :: after)) = startsEscape (c :: (t ++ [d])) := by
  cases t with
  | nil => exact startsEscape_two c d _ _
  | cons e es => exact startsEscape_two c e _ _

theorem readName_escape {cs : Text} (hcs : cs.head? ≠ some '\n') :
    readName ('\\' :: cs)
      = ((readEscape cs).1 :: (readName (readEscape cs).2).1, (readName (readEscape cs).2).2) := by
  have hstart : startsEscape ('\\' :: cs) = true := startsEscape_iff.2 ⟨cs, rfl, hcs⟩
  rw [readName, if_neg (by decide), if_pos hstart]

theorem swallows_nil : swallows [] = false := by
  rw [swallows, readName_stop rfl]
  rfl

theorem swallows_char {c : Char} (hc : isNameChar c = true) (t : Text) :
    swallows (c :: t) = swallows t := by
  rw [swallows, List.cons_append, readName_char hc]
  rfl

/-- The text of a name that ends with an escape does not go on with what ends the
escape. -/
theorem stops_of_endsName {e rest : Text} {c : Char} (hread : Escape e c) (hhead : e.head? ≠ some '\n')
    (h : endsName ('\\' :: e) rest = true) : Escape.Stops e rest := by
  intro hhex
  simp only [endsName, continuesName, Bool.and_eq_true, Bool.not_eq_true', Bool.or_eq_false_iff,
    Bool.and_eq_false_iff] at h
  obtain ⟨⟨hchar, -⟩, hspace⟩ := h
  -- the escape takes a space if it is made of digits only
  have hswallows : swallows ('\\' :: e) = true := by
    have hdigits : readEscape (e ++ [' ']) = ((readEscape (e ++ [' '])).1, []) := by
      cases hread with
      | char hc => rw [hhex _ List.mem_cons_self] at hc; cases hc
      | digits hne hdigits hlength =>
        rw [readEscape_hex hne hdigits hlength (Or.inr rfl)]
        rfl
      | @spaced digits space _ _ _ hend =>
        have hbad := hhex space (List.mem_append_right _ List.mem_cons_self)
        rw [isHex_of_isSpace hend] at hbad
        cases hbad
    have hhead' : (e ++ [' ']).head? ≠ some '\n' := by
      obtain ⟨d, ds, rfl⟩ := List.exists_cons_of_ne_nil hread.ne_nil
      exact hhead
    rw [swallows, List.cons_append, readName_escape hhead', hdigits, readName]
    rfl
  rw [hswallows] at hspace
  refine ⟨Or.inr ?_, hspace.resolve_left (by decide)⟩
  cases rest with
  | nil => rfl
  | cons d ds =>
    rw [List.head?_cons, Option.any_some, Bool.eq_false_iff] at hchar ⊢
    exact fun hd => hchar (isNameChar_of_isHex hd)

theorem swallows_escape {e t : Text} {c : Char} (hread : Escape e c) (hhead : e.head? ≠ some '\n')
    (ht : t ≠ []) (hstops : Escape.Stops e t) : swallows ('\\' :: (e ++ t)) = swallows t := by
  have hhead' : (e ++ (t ++ [' '])).head? ≠ some '\n' := by
    obtain ⟨d, ds, rfl⟩ := List.exists_cons_of_ne_nil hread.ne_nil
    exact hhead
  have hstops' : Escape.Stops e (t ++ [' ']) := by
    rw [← List.append_nil t] at hstops
    exact hstops.append ht [' ']
  rw [swallows, List.cons_append, List.append_assoc, readName_escape hhead', hread.read hstops']
  rfl

/-- What a name takes of a text before `rest`, and the name.  The rest ends the last escape. -/
inductive NameBody (rest : Text) : Text → Text → Prop
  | nil : NameBody rest [] []
  | char {c : Char} {t name : Text} (hc : isNameChar c = true) (ht : NameBody rest t name) :
    NameBody rest (c :: t) (c :: name)
  | escape {e t name : Text} {c : Char} (he : Escape e c) (hhead : e.head? ≠ some '\n')
    (hstops : Escape.Stops e (t ++ rest)) (ht : NameBody rest t name) :
    NameBody rest ('\\' :: (e ++ t)) (c :: name)

namespace NameBody

variable {rest t name : Text}

theorem read (h : NameBody rest t name) (hrest : continuesName rest = false) :
    readName (t ++ rest) = (name, rest) := by
  induction h with
  | nil => exact readName_stop hrest
  | char hc _ ih => rw [List.cons_append, readName_char hc, ih]
  | @escape e t name c he hhead hstops _ ih =>
    have hhead' : (e ++ (t ++ rest)).head? ≠ some '\n' := by
      obtain ⟨d, ds, rfl⟩ := List.exists_cons_of_ne_nil he.ne_nil
      exact hhead
    rw [List.cons_append, List.append_assoc, readName_escape hhead', he.read hstops, ih]

/-- The text of a name is one before every other text where it ends. -/
theorem exchange (h : NameBody rest t name) {rest' : Text} (hends : endsName t rest' = true) :
    NameBody rest' t name := by
  induction h with
  | nil => exact .nil
  | char hc _ ih =>
    rw [endsName, swallows_char hc] at hends
    exact .char hc (ih hends)
  | @escape e t name c he hhead hstops _ ih =>
    -- the escape ends inside of the name, or with it
    rcases eq_or_ne t [] with rfl | hne
    · rw [List.append_nil] at hends
      refine .escape he hhead (stops_of_endsName he hhead hends) (ih ?_)
      simp only [endsName, Bool.and_eq_true] at hends
      simp [endsName, swallows_nil, hends.1]
    · have hinner : Escape.Stops e t := by simpa using hstops.append hne []
      rw [endsName, swallows_escape he hhead hne hinner] at hends
      exact .escape he hhead (hstops.append hne rest') (ih hends)

end NameBody

/-- A name that is read before a text has a body there. -/
theorem exists_nameBody {s name rest : Text} (h : readName s = (name, rest)) (hrest : rest ≠ []) :
    ∃ t, s = t ++ rest ∧ NameBody rest t name := by
  fun_induction readName s generalizing name with
  | case1 => cases h; exact absurd rfl hrest
  | case2 c cs hc =>
    rename_i ih
    obtain ⟨rfl, hmore⟩ := Prod.mk.inj h
    obtain ⟨t, rfl, ht⟩ := ih (Prod.ext rfl hmore)
    exact ⟨c :: t, rfl, .char hc ht⟩
  | case3 c cs hc hescape =>
    rename_i ih
    obtain ⟨rfl, hmore⟩ := Prod.mk.inj h
    obtain ⟨t, hbehind, ht⟩ := ih (Prod.ext rfl hmore)
    obtain ⟨cs, heq, hhead⟩ := startsEscape_iff.1 hescape
    obtain ⟨rfl, rfl⟩ := List.cons.inj heq
    have hcs : cs ≠ [] := by
      rintro rfl
      rw [show readEscape [] = (replacement, []) from rfl] at hbehind
      exact hrest (List.append_eq_nil_iff.1 hbehind.symm).2
    obtain ⟨e, he, hread, hstops⟩ := exists_escape hcs
    rw [hbehind] at hstops
    refine ⟨'\\' :: (e ++ t), by rw [he, hbehind]; simp, .escape hread ?_ hstops ht⟩
    obtain ⟨d, ds, rfl⟩ := List.exists_cons_of_ne_nil hread.ne_nil
    rwa [he] at hhead
  | case4 => cases h; exact ⟨[], rfl, .nil⟩

/-- The name of a text is the same wherever the text behind it does not go on with
it. -/
theorem readName_local {s name rest : Text} (h : readName s = (name, rest)) (hrest : rest ≠ []) :
    ∃ t, s = t ++ rest ∧
      ∀ rest', endsName t rest' = true → readName (t ++ rest') = (name, rest') := by
  obtain ⟨t, rfl, ht⟩ := exists_nameBody h hrest
  refine ⟨t, rfl, fun rest' hends => (ht.exchange hends).read ?_⟩
  simp only [endsName, Bool.and_eq_true, Bool.not_eq_true'] at hends
  exact hends.1

theorem continuesName_readName (t : Text) : continuesName (readName t).2 = false := by
  fun_induction readName t with
  | case1 => rfl
  | case2 c cs _ more ih => exact ih
  | case3 c cs _ _ more ih => exact ih
  | case4 c cs hc hescape => simp [continuesName, hc, hescape]

theorem isNameChar_of_isNameStart {c : Char} (h : isNameStart c = true) : isNameChar c = true := by
  simp [isNameChar, h]

/-- The text of a name does not end with a backslash that escapes what follows. -/
theorem readName_ne_backslash {n rest : Text} (hrest : rest ≠ []) :
    readName ('\\' :: rest) ≠ (n, rest) := by
  intro h
  rcases eq_or_ne rest.head? (some '\n') with hhead | hhead
  · obtain ⟨cs, rfl⟩ := List.head?_eq_some_iff.1 hhead
    rw [readName_stop rfl] at h
    exact List.cons_ne_self _ _ (Prod.mk.inj h).2
  · -- the escape takes something of the rest
    rw [readName_escape hhead] at h
    obtain ⟨e, he, hread, -⟩ := exists_escape hrest
    have hle := readName_length (readEscape rest).2
    rw [(Prod.mk.inj h).2] at hle
    have hlength := congrArg List.length he
    have hpos := List.length_pos_iff.2 hread.ne_nil
    rw [List.length_append] at hlength
    omega

/-- Whether the text of a name starts an identifier does not depend on what ends it. -/
theorem startsIdent_local {t n rest rest' : Text} (ht : t ≠ []) (hrest : rest ≠ [])
    (hread : readName (t ++ rest) = (n, rest)) (hstop' : continuesName rest' = false) :
    startsIdent (t ++ rest') = startsIdent (t ++ rest) := by
  have hstop : continuesName rest = false := by
    have hend := continuesName_readName (t ++ rest)
    rwa [hread] at hend
  -- a text that does not go on with a name brings nothing that a hyphen needs
  have hhyphen : ∀ x : Text, continuesName x = false →
      (x.head?.any (fun d => isNameStart d || d == '-') || startsEscape x) = false := by
    intro x hx
    simp only [continuesName, Bool.or_eq_false_iff] at hx
    rw [hx.2, Bool.or_false]
    cases x with
    | nil => rfl
    | cons d ds =>
      have hd : isNameChar d = false := by simpa using hx.1
      simp only [isNameChar, Bool.or_eq_false_iff, beq_eq_false_iff_ne] at hd
      simp [hd.1.1, hd.2]
  obtain ⟨c, ts, rfl⟩ := List.exists_cons_of_ne_nil ht
  cases ts with
  | nil =>
    have hc : c ≠ '\\' := by
      rintro rfl
      exact readName_ne_backslash hrest hread
    simp only [List.singleton_append, startsIdent, startsEscape_eq_false _ hc, hhyphen _ hstop,
      hhyphen _ hstop']
  | cons d ds =>
    have hescape : startsEscape (d :: ds ++ rest') = startsEscape (d :: ds ++ rest) ∨ c ≠ '-' := by
      rcases eq_or_ne c '-' with rfl | hc
      · left
        cases ds with
        | nil =>
          have hd : d ≠ '\\' := by
            rintro rfl
            rw [List.cons_append, readName_char (by decide)] at hread
            exact readName_ne_backslash hrest (Prod.ext rfl (Prod.mk.inj hread).2)
          rw [List.singleton_append, List.singleton_append, startsEscape_eq_false _ hd,
            startsEscape_eq_false _ hd]
        | cons e es => exact startsEscape_two d e _ _
      · exact Or.inr hc
    have htwo := startsEscape_two c d (ds ++ rest') (ds ++ rest)
    simp only [List.cons_append] at hescape htwo ⊢
    simp only [startsIdent, htwo, List.head?_cons]
    rcases hescape with hescape | hc
    · rw [hescape]
    · rw [beq_eq_false_iff_ne.2 hc, Bool.false_and, Bool.false_and]

theorem continuesName_of_startsIdent {t : Text} (h : startsIdent t = true) :
    continuesName t = true := by
  cases t with
  | nil => cases h
  | cons c cs =>
    rw [continuesName, Bool.or_eq_true]
    exact isNameChar_or_startsEscape h

theorem continuesName_of_endsName {t rest : Text} (h : endsName t rest = true) :
    continuesName rest = false := by
  simp only [endsName, Bool.and_eq_true, Bool.not_eq_true'] at h
  exact h.1

/-- Where a name starts, it takes some text. -/
theorem ne_nil_of_readName {t n rest : Text} (hrest : rest ≠ [])
    (hread : readName (t ++ rest) = (n, rest)) (hname : continuesName (t ++ rest) = true) :
    t ≠ [] := by
  rintro rfl
  obtain ⟨c, cs, rfl⟩ := List.exists_cons_of_ne_nil hrest
  rw [continuesName, Bool.or_eq_true] at hname
  have hlt := @readName_length_lt c cs hname
  rw [List.nil_append] at hread
  rw [hread, List.length_cons] at hlt
  omega

/-- Whether a text starts with a name does not depend on what ends the name. -/
theorem continuesName_local {t n rest : Text} (ht : t ≠ []) (hrest : rest ≠ [])
    (hread : readName (t ++ rest) = (n, rest)) (rest' : Text) :
    continuesName (t ++ rest') = continuesName (t ++ rest) := by
  obtain ⟨c, ts, rfl⟩ := List.exists_cons_of_ne_nil ht
  have hescape : startsEscape (c :: ts ++ rest') = startsEscape (c :: ts ++ rest) := by
    cases ts with
    | nil =>
      have hc : c ≠ '\\' := by
        rintro rfl
        exact readName_ne_backslash hrest hread
      rw [List.singleton_append, List.singleton_append, startsEscape_eq_false _ hc,
        startsEscape_eq_false _ hc]
    | cons d ds => exact startsEscape_two c d _ _
  rw [continuesName, continuesName, hescape]
  rfl

/-! ## Strings, URLs and comments -/

section Strings

variable {quote c : Char} {cs : Text}

theorem readString_quote : readString quote (quote :: cs) = ([], .closed, cs) := by
  rw [readString.eq_def]
  exact if_pos rfl

theorem readString_char (hquote : c ≠ quote) (hnewline : c ≠ '\n') (hescape : c ≠ '\\') :
    readString quote (c :: cs) = (c :: (readString quote cs).1, (readString quote cs).2) := by
  rw [readString.eq_def]
  simp only [if_neg hquote, if_neg hnewline, if_neg hescape]

theorem readString_continued (hquote : '\\' ≠ quote) :
    readString quote ('\\' :: '\n' :: cs) = readString quote cs := by
  rw [readString.eq_def]
  exact (if_neg hquote).trans rfl

theorem readString_escape (hquote : '\\' ≠ quote) (hc : c ≠ '\n') :
    readString quote ('\\' :: c :: cs)
      = ((readEscape (c :: cs)).1 :: (readString quote (readEscape (c :: cs)).2).1,
        (readString quote (readEscape (c :: cs)).2).2) := by
  rw [readString.eq_def]
  exact (if_neg hquote).trans (if_neg hc)

end Strings

/-- What stands behind the opening quote of a string, up to the character where it stops, and
its value.  That character ends the last escape. -/
inductive StringBody (quote stop : Char) : Text → Text → Prop
  | nil : StringBody quote stop [] []
  /-- A backslash and a newline are both dropped. -/
  | continued {t value : Text} (hquote : '\\' ≠ quote) (ht : StringBody quote stop t value) :
    StringBody quote stop ('\\' :: '\n' :: t) value
  | escape {e t value : Text} {c : Char} (hquote : '\\' ≠ quote) (he : Escape e c)
    (hhead : e.head? ≠ some '\n') (hstops : Escape.Stops e (t ++ [stop]))
    (ht : StringBody quote stop t value) : StringBody quote stop ('\\' :: (e ++ t)) (c :: value)
  | char {c : Char} {t value : Text} (hquote : c ≠ quote) (hnewline : c ≠ '\n') (hc : c ≠ '\\')
    (ht : StringBody quote stop t value) : StringBody quote stop (c :: t) (c :: value)

/-- What ends a string before the end of the text: its quote, or a newline, which is no part
of it. -/
inductive StringEnd (quote : Char) : Text → Ending → Text → Prop
  | closed (rest : Text) : StringEnd quote (quote :: rest) .closed rest
  | broken (hquote : '\n' ≠ quote) (rest : Text) :
    StringEnd quote ('\n' :: rest) .broken ('\n' :: rest)

/-- The body of a string is read up to the character where it stops. -/
theorem StringBody.read {quote stop : Char} {body value : Text} (h : StringBody quote stop body value)
    (after : Text) : readString quote (body ++ stop :: after)
      = (value ++ (readString quote (stop :: after)).1, (readString quote (stop :: after)).2) := by
  induction h with
  | nil => rfl
  | continued hquote _ ih => exact (readString_continued hquote).trans ih
  | @escape e t value c hquote he hhead hstops _ ih =>
    have hread := he.read (hstops.congr (head?_append_cons t stop after []))
    obtain ⟨d, ds, rfl⟩ := List.exists_cons_of_ne_nil he.ne_nil
    rw [List.cons_append] at hread
    rw [List.cons_append, List.append_assoc, List.cons_append,
      readString_escape hquote fun hd => hhead (congrArg some hd), hread, ih]
    rfl
  | char hquote hnewline hc _ ih =>
    rw [List.cons_append, readString_char hquote hnewline hc, ih]
    rfl

theorem StringEnd.read {quote : Char} {t rest : Text} {ending : Ending}
    (h : StringEnd quote t ending rest) : readString quote t = ([], ending, rest) := by
  cases h with
  | closed => exact readString_quote
  | broken hquote =>
    rw [readString.eq_def]
    simp only [if_neg hquote, if_true]

/-- A string that ends before the end of the text has a body, and behind it what ends it. -/
theorem exists_stringBody {quote : Char} {s value rest : Text} {ending : Ending}
    (h : readString quote s = (value, ending, rest)) (hending : ending ≠ .endOfText) :
    ∃ body stop after, s = body ++ stop :: after ∧ StringBody quote stop body value
      ∧ StringEnd quote (stop :: after) ending rest := by
  fun_induction readString quote s generalizing value with
  | case1 => cases h; exact absurd rfl hending
  | case2 => cases h; exact ⟨[], quote, rest, rfl, .nil, .closed rest⟩
  | case3 cs hquote => cases h; exact ⟨[], '\n', cs, rfl, .nil, .broken hquote cs⟩
  | case4 => cases h; exact absurd rfl hending
  | case5 ds hquote _ ih =>
    obtain ⟨body, stop, after, rfl, hbody, hstop⟩ := ih h
    exact ⟨'\\' :: '\n' :: body, stop, after, rfl, .continued hquote hbody, hstop⟩
  | case6 d ds hd more hquote =>
    rename_i ih
    obtain ⟨rfl, hmore⟩ := Prod.mk.inj h
    obtain ⟨body, stop, after, hbehind, hbody, hstop⟩ := ih (Prod.ext rfl hmore)
    obtain ⟨e, he, hread, hstops⟩ := exists_escape (List.cons_ne_nil d ds)
    rw [hbehind] at hstops
    refine ⟨'\\' :: (e ++ body), stop, after, by rw [he, hbehind]; simp,
      .escape hquote hread ?_ (hstops.congr (head?_append_cons body stop [] after)) hbody, hstop⟩
    obtain ⟨d', ds', rfl⟩ := List.exists_cons_of_ne_nil hread.ne_nil
    obtain ⟨rfl, -⟩ := List.cons.inj he
    simpa using hd
  | case7 c cs hquote hnewline hc =>
    rename_i ih
    obtain ⟨rfl, hmore⟩ := Prod.mk.inj h
    obtain ⟨body, stop, after, rfl, hbody, hstop⟩ := ih (Prod.ext rfl hmore)
    exact ⟨c :: body, stop, after, rfl, .char hquote hnewline hc hbody, hstop⟩

/-- A string that is closed is the same whatever stands behind it. -/
theorem readString_local {quote : Char} {s value rest : Text}
    (h : readString quote s = (value, .closed, rest)) : ∃ body, s = body ++ quote :: rest
      ∧ ∀ rest', readString quote (body ++ quote :: rest') = (value, .closed, rest') := by
  obtain ⟨body, stop, after, rfl, hbody, hstop⟩ := exists_stringBody h nofun
  cases hstop
  refine ⟨body, rfl, fun rest' => ?_⟩
  rw [hbody.read, readString_quote, List.append_nil]

/-- What stands between the bracket of a URL and the character where its value stops, and the
value.  That character ends the last escape, and a backslash stands for itself before it only. -/
inductive UrlBody (stop : Char) : Text → Text → Prop
  | nil : UrlBody stop [] []
  | escape {e t value : Text} {c : Char} (he : Escape e c) (hhead : e.head? ≠ some '\n')
    (hstops : Escape.Stops e (t ++ [stop])) (ht : UrlBody stop t value) :
    UrlBody stop ('\\' :: (e ++ t)) (c :: value)
  | char {c : Char} {t value : Text} (hclose : c ≠ ')') (hspace : isSpace c = false)
    (hbreaks : breaksUrl c = false) (hescape : startsEscape (c :: (t ++ [stop])) = false)
    (ht : UrlBody stop t value) : UrlBody stop (c :: t) (c :: value)

/-- What ends a URL before the end of the text: its bracket, perhaps behind whitespace, or a
character that it may not hold, be it for the whitespace before it. -/
inductive UrlEnd : Text → Ending → Text → Prop
  | closed {spaces : Text} (hspaces : ∀ c ∈ spaces, isSpace c = true) (rest : Text) :
    UrlEnd (spaces ++ ')' :: rest) .closed rest
  | spaced {space d : Char} {spaces : Text} (hspace : isSpace space = true)
    (hspaces : ∀ c ∈ spaces, isSpace c = true) (hd : isSpace d = false) (hclose : d ≠ ')')
    (rest : Text) : UrlEnd (space :: (spaces ++ d :: rest)) .broken (d :: rest)
  | broken {c : Char} (hbreaks : breaksUrl c = true) (rest : Text) :
    UrlEnd (c :: rest) .broken rest

/-- The body of a URL is read up to the character where it stops. -/
theorem UrlBody.read {stop : Char} {body value : Text} (h : UrlBody stop body value)
    (after : Text) : readUrlValue (body ++ stop :: after)
      = (value ++ (readUrlValue (stop :: after)).1, (readUrlValue (stop :: after)).2) := by
  induction h with
  | nil => rfl
  | @escape e t value c he hhead hstops _ ih =>
    have hread := he.read (hstops.congr (head?_append_cons t stop after []))
    have hstart : startsEscape ('\\' :: (e ++ (t ++ stop :: after))) = true := by
      obtain ⟨d, ds, rfl⟩ := List.exists_cons_of_ne_nil he.ne_nil
      exact startsEscape_iff.2 ⟨_, rfl, hhead⟩
    rw [List.cons_append, List.append_assoc, readUrlValue, if_neg (by decide),
      if_neg (by decide), if_pos hstart, hread, ih]
    rfl
  | @char c t value hclose hspace hbreaks hescape _ ih =>
    rw [← startsEscape_append t stop after] at hescape
    rw [List.cons_append, readUrlValue, if_neg hclose, hspace, if_neg Bool.false_ne_true, hescape,
      if_neg Bool.false_ne_true, hbreaks, if_neg Bool.false_ne_true, ih]
    rfl

theorem UrlEnd.read {t rest : Text} {ending : Ending} (h : UrlEnd t ending rest) :
    readUrlValue t = ([], ending, rest) := by
  cases h with
  | @closed spaces hspaces =>
    cases spaces with
    | nil => rw [List.nil_append, readUrlValue, if_pos rfl]
    | cons c cs =>
      obtain ⟨hc, hcs⟩ := List.forall_mem_cons.1 hspaces
      have hclose : c ≠ ')' := by
        rintro rfl
        cases hc
      rw [List.cons_append, readUrlValue, if_neg hclose, if_pos hc, dropWhile_run hcs rfl]
      simp only [if_true]
  | @spaced space d spaces hspace hspaces hd hclose rest =>
    have hclose' : space ≠ ')' := by
      rintro rfl
      cases hspace
    rw [readUrlValue, if_neg hclose', if_pos hspace, dropWhile_run hspaces (by simpa using hd)]
    simp only [if_neg hclose]
  | @broken c hbreaks =>
    have hclose : c ≠ ')' := by
      rintro rfl
      cases hbreaks
    have hspace : ¬ isSpace c = true := by
      intro hspace
      simp only [isSpace, Bool.or_eq_true, beq_iff_eq] at hspace
      rcases hspace with (rfl | rfl) | rfl <;> cases hbreaks
    have hbackslash : c ≠ '\\' := by
      rintro rfl
      cases hbreaks
    rw [readUrlValue, if_neg hclose, if_neg hspace, startsEscape_eq_false rest hbackslash,
      if_neg Bool.false_ne_true, if_pos hbreaks]

/-- What ends a URL is the same before every text, the first character apart if that broke the
URL. -/
theorem UrlEnd.exists_append {t rest : Text} {ending : Ending} (h : UrlEnd t ending rest) :
    ∃ stop k, t = stop :: (k ++ rest)
      ∧ ∀ rest', (ending = .broken → rest'.head? = rest.head?) →
        UrlEnd (stop :: (k ++ rest')) ending rest' := by
  cases h with
  | @closed spaces hspaces =>
    cases spaces with
    | nil => exact ⟨')', [], rfl, fun rest' _ => .closed hspaces rest'⟩
    | cons c cs =>
      refine ⟨c, cs ++ [')'], by simp, fun rest' _ => ?_⟩
      rw [List.append_assoc]
      exact .closed hspaces rest'
  | @spaced space d spaces hspace hspaces hd hclose =>
    refine ⟨space, spaces, rfl, fun rest' hhead => ?_⟩
    obtain ⟨ds, rfl⟩ := List.head?_eq_some_iff.1 (hhead rfl)
    exact .spaced hspace hspaces hd hclose ds
  | @broken c hbreaks => exact ⟨c, [], rfl, fun rest' _ => .broken hbreaks rest'⟩

/-- A URL that ends before the end of the text has a body, and behind it what ends it. -/
theorem exists_urlBody {s value rest : Text} {ending : Ending}
    (h : readUrlValue s = (value, ending, rest)) (hending : ending ≠ .endOfText) :
    ∃ body stop after, s = body ++ stop :: after ∧ UrlBody stop body value
      ∧ UrlEnd (stop :: after) ending rest := by
  fun_induction readUrlValue s generalizing value with
  | case1 => cases h; exact absurd rfl hending
  | case2 => cases h; exact ⟨[], ')', rest, rfl, .nil, .closed (List.forall_mem_nil _) rest⟩
  | case3 => cases h; exact absurd rfl hending
  | case4 c cs hc hspace ds hend =>
    cases h
    obtain ⟨run, more, rfl, hrun, hmore⟩ := exists_takeWhile isSpace cs
    rw [dropWhile_run hrun hmore] at hend
    subst hend
    exact ⟨[], c, run ++ ')' :: rest, rfl, .nil,
      .closed (List.forall_mem_cons.2 ⟨hspace, hrun⟩) rest⟩
  | case5 c cs hc hspace d ds hend hd =>
    cases h
    obtain ⟨run, more, rfl, hrun, hmore⟩ := exists_takeWhile isSpace cs
    rw [dropWhile_run hrun hmore] at hend
    subst hend
    exact ⟨[], c, run ++ d :: ds, rfl, .nil, .spaced hspace hrun (by simpa using hmore) hd ds⟩
  | case6 c cs hc hspace hescape =>
    rename_i ih
    obtain ⟨rfl, hmore⟩ := Prod.mk.inj h
    obtain ⟨body, stop, after, hbehind, hbody, hstop⟩ := ih (Prod.ext rfl hmore)
    obtain ⟨cs, heq, hhead⟩ := startsEscape_iff.1 hescape
    obtain ⟨rfl, rfl⟩ := List.cons.inj heq
    -- behind an escape at the end of the text nothing could end the URL
    have hcs : cs ≠ [] := by
      rintro rfl
      rw [show readEscape [] = (replacement, []) from rfl] at hbehind
      simp at hbehind
    obtain ⟨e, he, hread, hstops⟩ := exists_escape hcs
    rw [hbehind] at hstops
    refine ⟨'\\' :: (e ++ body), stop, after, by rw [he, hbehind]; simp,
      .escape hread ?_ (hstops.congr (head?_append_cons body stop [] after)) hbody, hstop⟩
    obtain ⟨d, ds, rfl⟩ := List.exists_cons_of_ne_nil hread.ne_nil
    rwa [he] at hhead
  | case7 c cs hc hspace hescape hbreaks =>
    cases h
    exact ⟨[], c, rest, rfl, .nil, .broken hbreaks rest⟩
  | case8 c cs hc hspace hescape hbreaks =>
    rename_i ih
    obtain ⟨rfl, hmore⟩ := Prod.mk.inj h
    obtain ⟨body, stop, after, rfl, hbody, hstop⟩ := ih (Prod.ext rfl hmore)
    rw [startsEscape_append body stop after, Bool.not_eq_true] at hescape
    exact ⟨c :: body, stop, after, rfl,
      .char hc (Bool.eq_false_iff.2 hspace) (Bool.eq_false_iff.2 hbreaks) hescape hbody, hstop⟩

/-- A URL that ends before the end of the text is the same before every other text, the first
character apart if that broke the URL. -/
theorem readUrlValue_local {s value rest : Text} {ending : Ending}
    (h : readUrlValue s = (value, ending, rest)) (hending : ending ≠ .endOfText) :
    ∃ t, s = t ++ rest ∧ t ≠ [] ∧ ∀ rest', (ending = .broken → rest'.head? = rest.head?) →
      readUrlValue (t ++ rest') = (value, ending, rest') := by
  obtain ⟨body, stop, after, rfl, hbody, hstop⟩ := exists_urlBody h hending
  obtain ⟨stop', k, heq, hstop'⟩ := hstop.exists_append
  obtain ⟨rfl, rfl⟩ := List.cons.inj heq
  refine ⟨body ++ stop :: k, by simp, by simp, fun rest' hhead => ?_⟩
  rw [List.append_assoc, List.cons_append, hbody.read, (hstop' rest' hhead).read,
    List.append_nil]

theorem readComment_local {rest : Text} (hrest : rest ≠ []) (s : Text) : ∀ {text : Text},
    Lexeme.readComment s = (text, rest) → ∃ t, s = t ++ rest ∧ t ≠ [] ∧
      ∀ rest', Lexeme.readComment (t ++ rest') = (text, rest') := by
  induction s using Lexeme.readComment.induct with
  | case1 =>
    intro text h
    cases h
    exact absurd rfl hrest
  | case2 cs =>
    intro text h
    cases h
    exact ⟨['*', '/'], rfl, List.cons_ne_nil _ _, fun rest' => rfl⟩
  | case3 c cs hc ih =>
    intro text h
    rw [Lexeme.readComment] at h
    · obtain ⟨rfl, hmore⟩ := Prod.mk.inj h
      obtain ⟨t, rfl, hne, hlocal⟩ := ih (Prod.ext rfl hmore)
      refine ⟨c :: t, rfl, List.cons_ne_nil _ _, fun rest' => ?_⟩
      rw [List.cons_append, Lexeme.readComment, hlocal rest']
      obtain ⟨d, ds, rfl⟩ := List.exists_cons_of_ne_nil hne
      rintro ds' rfl heq
      obtain ⟨rfl, -⟩ := List.cons.inj heq
      exact hc _ rfl rfl
    · exact hc

end Component

end NestedSheet
