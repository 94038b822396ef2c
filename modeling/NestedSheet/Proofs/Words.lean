import Mathlib.Data.List.Basic
import NestedSheet.Component.Print
import NestedSheet.Proofs.Lexing
import NestedSheet.Proofs.Shape

/-!
# Words and phrases

A word is a run of lower-case letters, and a phrase is one or more words with single
spaces between them.

Main results: `exists_words`, phrases as lists of words; `mem_phrase`, the characters
of a phrase; `trimmed_of_isPhrase`, `trimmed_of_isAtPhrase`, their ends.
-/

namespace NestedSheet

namespace Text

/-- A word is a run of lower-case letters that is not empty. -/
def isPlainWord (t : Text) : Bool :=
  !t.isEmpty && t.all Char.isLower

/-- A phrase is one or more words with single spaces between them. -/
def isPhrase (t : Text) : Bool :=
  (cut ' ' t).all isPlainWord

/-- An at sign with a phrase right after it. -/
def isAtPhrase : Text → Bool
  | '@' :: t => isPhrase t
  | _ => false

/-- The words of a phrase after the first one, each with the space before it. -/
def spaced (words : List Text) : Text :=
  words.flatMap (' ' :: ·)

/-! ## Letters -/

theorem isNameStart_of_isLower {c : Char} (h : c.isLower = true) :
    Component.isNameStart c = true := by
  have halpha : c.isAlpha = true := by
    show (c.isUpper || c.isLower) = true
    rw [h, Bool.or_true]
  simp [Component.isNameStart, halpha]

theorem isNameChar_of_isLower {c : Char} (h : c.isLower = true) :
    Component.isNameChar c = true := by
  simp [Component.isNameChar, isNameStart_of_isLower h]

/-- A letter is no other character. -/
theorem ne_of_isLower {c d : Char} (h : c.isLower = true) (hd : d.isLower = false) : c ≠ d := by
  rintro rfl
  rw [h] at hd
  cases hd

theorem isBlank_of_isLower {c : Char} (h : c.isLower = true) : isBlank c = false := by
  obtain ⟨hfirst, hlast⟩ := Bool.and_eq_true_iff.1 h
  -- every blank is below the small letters or above them
  have hlow : 97 ≤ c.toNat := of_decide_eq_true hfirst
  have hhigh : c.toNat ≤ 122 := of_decide_eq_true hlast
  simp only [isBlank, Bool.or_eq_false_iff, Bool.and_eq_false_iff, decide_eq_false_iff_not,
    beq_eq_false_iff_ne]
  omega

/-! ## Words -/

theorem isPlainWord_iff {t : Text} : isPlainWord t = true ↔ t ≠ [] ∧ ∀ c ∈ t, c.isLower = true := by
  simp [isPlainWord]

theorem isName_of_isPlainWord {t : Text} (h : isPlainWord t = true) : IsName t := by
  obtain ⟨hne, hchars⟩ := isPlainWord_iff.1 h
  refine ⟨?_, fun c hc => isNameChar_of_isLower (hchars c hc)⟩
  cases t with
  | nil => exact absurd rfl hne
  | cons c cs => exact isNameStart_of_isLower (hchars c List.mem_cons_self)

theorem intercalate_space (word : Text) (words : List Text) :
    [' '].intercalate (word :: words) = word ++ spaced words := by
  induction words generalizing word with
  | nil => simp [spaced]
  | cons next words ih =>
    rw [List.intercalate_cons_cons, ih next]
    simp [spaced]

/-- A phrase is a word with further words after it. -/
theorem exists_words {t : Text} (h : isPhrase t = true) :
    ∃ word words, isPlainWord word = true ∧ (∀ w ∈ words, isPlainWord w = true) ∧ t = word ++ spaced words := by
  obtain ⟨word, words, hcut⟩ := List.exists_cons_of_ne_nil (cut_ne_nil ' ' t)
  have hall := List.all_eq_true.1 h
  rw [hcut, List.forall_mem_cons] at hall
  refine ⟨word, words, hall.1, hall.2, ?_⟩
  rw [← intercalate_space, ← hcut, intercalate_cut]

theorem mem_spaced {words : List Text} (hwords : ∀ w ∈ words, isPlainWord w = true) {c : Char}
    (hc : c ∈ spaced words) : c.isLower = true ∨ c = ' ' := by
  obtain ⟨word, hword, hc⟩ := List.mem_flatMap.1 hc
  rcases List.mem_cons.1 hc with rfl | hc
  · exact Or.inr rfl
  · exact Or.inl ((isPlainWord_iff.1 (hwords word hword)).2 c hc)

/-- A phrase has letters and spaces only. -/
theorem mem_phrase {t : Text} (h : isPhrase t = true) {c : Char} (hc : c ∈ t) :
    c.isLower = true ∨ c = ' ' := by
  obtain ⟨word, words, hword, hwords, rfl⟩ := exists_words h
  rcases List.mem_append.1 hc with hc | hc
  · exact Or.inl ((isPlainWord_iff.1 hword).2 c hc)
  · exact mem_spaced hwords hc

theorem isPlainWord_ends {t : Text} (h : isPlainWord t = true) :
    (∃ c cs, t = c :: cs ∧ c.isLower = true) ∧ ∃ cs c, t = cs ++ [c] ∧ c.isLower = true := by
  obtain ⟨hne, hchars⟩ := isPlainWord_iff.1 h
  constructor
  · obtain ⟨c, cs, rfl⟩ := List.exists_cons_of_ne_nil hne
    exact ⟨c, cs, rfl, hchars c List.mem_cons_self⟩
  · refine ⟨t.dropLast, t.getLast hne, (List.dropLast_append_getLast hne).symm, ?_⟩
    exact hchars _ (List.getLast_mem hne)

/-- A phrase starts and ends with a letter. -/
theorem isPhrase_ends {t : Text} (h : isPhrase t = true) :
    (∃ c cs, t = c :: cs ∧ c.isLower = true) ∧ ∃ cs c, t = cs ++ [c] ∧ c.isLower = true := by
  obtain ⟨word, words, hword, hwords, rfl⟩ := exists_words h
  obtain ⟨⟨c, cs, rfl, hc⟩, before, last, hlast, hlower⟩ := isPlainWord_ends hword
  refine ⟨⟨c, cs ++ spaced words, rfl, hc⟩, ?_⟩
  -- the last letter is that of the last word, which may be the first one
  rcases List.eq_nil_or_concat words with rfl | ⟨init, final, rfl⟩
  · exact ⟨before, last, by rw [← hlast]; simp [spaced], hlower⟩
  · obtain ⟨-, ds, d, rfl, hd⟩ := isPlainWord_ends (hwords final (by simp))
    exact ⟨c :: cs ++ spaced init ++ ' ' :: ds, d, by simp [spaced], hd⟩

/-- Letters at its ends keep a text from being trimmed. -/
theorem trimmed_of_ends {t : Text} (h : (∃ c cs, t = c :: cs ∧ c.isLower = true)
    ∧ ∃ cs c, t = cs ++ [c] ∧ c.isLower = true) : Trimmed t := by
  obtain ⟨⟨c, cs, hfirst, hc⟩, ds, d, hlast, hd⟩ := h
  constructor
  · rw [hfirst]
    simp [isBlank_of_isLower hc]
  · rw [hlast]
    simp [isBlank_of_isLower hd]

theorem trimmed_of_isPlainWord {t : Text} (h : isPlainWord t = true) : Trimmed t :=
  trimmed_of_ends (isPlainWord_ends h)

theorem trimmed_of_isPhrase {t : Text} (h : isPhrase t = true) : Trimmed t :=
  trimmed_of_ends (isPhrase_ends h)

theorem exists_phrase {t : Text} (h : isAtPhrase t = true) :
    ∃ phrase, t = '@' :: phrase ∧ isPhrase phrase = true := by
  unfold isAtPhrase at h
  split at h
  · exact ⟨_, rfl, h⟩
  · cases h

theorem trimmed_of_isAtPhrase {t : Text} (h : isAtPhrase t = true) : Trimmed t := by
  obtain ⟨phrase, rfl, hphrase⟩ := exists_phrase h
  obtain ⟨-, ds, d, rfl, hd⟩ := isPhrase_ends hphrase
  refine ⟨rfl, ?_⟩
  rw [← List.cons_append, List.getLast?_concat]
  simp [isBlank_of_isLower hd]

/-! ## Characters of a sheet of phrases -/

/-- The letters, and the characters that stand between words. -/
def isWritten (c : Char) : Bool :=
  c.isLower || [' ', '\n', '@', ',', ':', ';', '!', '{', '}'].contains c

/-- A character of the class is none outside of it. -/
theorem ne_of_isWritten {c d : Char} (h : isWritten c = true) (hd : isWritten d = false) :
    c ≠ d := by
  rintro rfl
  rw [h] at hd
  cases hd

theorem isWritten_of_isLower {c : Char} (h : c.isLower = true) : isWritten c = true := by
  rw [isWritten, h, Bool.true_or]

theorem isWritten_phrase {t : Text} (h : isPhrase t = true) : ∀ c ∈ t, isWritten c = true := by
  intro c hc
  rcases mem_phrase h hc with hc | rfl
  · exact isWritten_of_isLower hc
  · rfl

theorem isWritten_spacing {t : Text} (h : Spacing t) : ∀ c ∈ t, isWritten c = true := by
  intro c hc
  rcases h c hc with rfl | rfl <;> rfl

end Text

end NestedSheet
