import NestedSheet.Proofs.Reading
import NestedSheet.Proofs.Words

/-!
# Components of a statement

The text of a statement without blanks at its ends is spelled by components none of
which ends the statement: reading them only adds them to those that are pending, and
trimming what is pending gives them back.  Statements are spelled piece by piece,
from words with spaces and marks between them.

Main results:

* `Spelled.join` — two spelled texts with a gap between them.
* `Spelled.phrase`, `isSpelled_intercalate` — phrases, and lists with commas.
-/

namespace NestedSheet

open Component

/-! ## Spaces -/

theorem inert_spaceComponents (p : Position) (t : Text) : ∀ c ∈ spaceComponents p t, Inert c := by
  unfold spaceComponents
  split
  · simp
  · intro c hc
    rw [List.mem_singleton] at hc
    subst hc
    exact inert_leaf rfl nofun

theorem isWhitespace_spaceComponents (p : Position) (t : Text) :
    ∀ c ∈ spaceComponents p t, c.isWhitespace = true := by
  unfold spaceComponents
  split
  · simp
  · intro c hc
    rw [List.mem_singleton] at hc
    subst hc
    rfl

/-! ## Spelled texts -/

/-- The text of a statement and the components at a position that spell it. -/
structure Spelled (p : Position) (t : Text) (components : List Component) : Prop where
  lexes : ∀ rest, endsWord rest = true → Lexes p t components rest
  inert : ∀ c ∈ components, Inert c
  start : t.head?.any (fun c => !isSpace c) = true
  position : components.head?.map Component.position = some p
  first : components.head?.any (fun c => !c.isWhitespace) = true
  last : components.getLast?.any (fun c => !c.isWhitespace) = true

namespace Spelled

variable {p : Position} {t u gap : Text} {components between more : List Component}

theorem ne_nil (h : Spelled p t components) : components ≠ [] := by
  rintro rfl
  cases h.first

theorem head?_append (h : Spelled p t components) (more : List Component) :
    (components ++ more).head? = components.head? := by
  obtain ⟨c, cs, rfl⟩ := List.exists_cons_of_ne_nil h.ne_nil
  rfl

/-- What follows a gap before a spelled text is no space. -/
theorem not_space (h : Spelled p t components) (rest : Text) :
    (t ++ rest).head?.any isSpace = false := by
  have hstart := h.start
  cases t with
  | nil => cases hstart
  | cons c cs => simpa using hstart

/-- Trimming takes the spaces around a spelled text off, and nothing more. -/
theorem strip_spaces (h : Spelled p t components) (before after : Text) (q r : Position) :
    Component.strip (spaceComponents q before ++ components ++ spaceComponents r after)
      = components :=
  Text.trim_append (isWhitespace_spaceComponents q before) (isWhitespace_spaceComponents r after)
    h.first h.last

theorem strip_lead (h : Spelled p t components) (before : Text) (q : Position) :
    Component.strip (spaceComponents q before ++ components) = components := by
  have hstrip := h.strip_spaces before [] q q
  rwa [spaceComponents, spaceComponents, if_pos rfl, List.append_nil] at hstrip

/-- Two spelled texts with a gap between them, in which the first one ends. -/
theorem join (ht : Spelled p t components) (hu : Spelled (p.after (t ++ gap)) u more)
    (hends : ∀ rest, endsWord (gap ++ rest) = true)
    (hgap : ∀ rest, Lexes (p.after t) gap between (u ++ rest))
    (hinert : ∀ c ∈ between, Inert c) :
    Spelled p (t ++ gap ++ u) (components ++ between ++ more) where
  lexes rest hrest := by
    -- each of the three texts is followed by the ones after it
    refine Lexes.append (Lexes.append (ht.lexes _ (hends _)) (hgap rest)) ?_
    exact hu.lexes rest hrest
  inert c hc := by
    simp only [List.mem_append] at hc
    rcases hc with (hc | hc) | hc
    · exact ht.inert c hc
    · exact hinert c hc
    · exact hu.inert c hc
  start := by
    have hstart := ht.start
    cases t with
    | nil => cases hstart
    | cons c cs => exact hstart
  position := by
    rw [List.append_assoc, ht.head?_append]
    exact ht.position
  first := by
    rw [List.append_assoc, ht.head?_append]
    exact ht.first
  last := by
    rw [List.getLast?_append_of_ne_nil _ hu.ne_nil]
    exact hu.last

theorem word (h : Text.isPlainWord t = true) (p : Position) :
    Spelled p t [.leaf p (.ident t)] where
  lexes rest hrest := lexes_word (Text.isName_of_isPlainWord h) hrest p
  inert c hc := by
    rw [List.mem_singleton.1 hc]
    exact inert_ident p t
  start := by
    obtain ⟨⟨c, cs, rfl, hc⟩, -⟩ := Text.isPlainWord_ends h
    simp [isSpace, Text.ne_of_isLower hc]
  position := rfl
  first := rfl
  last := rfl

theorem atWord (h : Text.isPlainWord t = true) (p : Position) :
    Spelled p ('@' :: t) [.leaf p (.atKeyword t)] where
  lexes rest hrest := lexes_atWord (Text.isName_of_isPlainWord h) hrest p
  inert c hc := by
    rw [List.mem_singleton.1 hc]
    exact inert_atKeyword p t
  start := rfl
  position := rfl
  first := rfl
  last := rfl

end Spelled

theorem isSpace_of_spacing {t : Text} (ht : Spacing t) : ∀ c ∈ t, isSpace c = true := by
  intro c hc
  rcases ht c hc with rfl | rfl <;> rfl

namespace Spelled

variable {p : Position} {t u gap : Text} {components more : List Component}

/-- Two spelled texts with spaces between them. -/
theorem spaces (ht : Spelled p t components) (hu : Spelled (p.after (t ++ gap)) u more)
    (hgap : Spacing gap) (hne : gap ≠ []) :
    Spelled p (t ++ gap ++ u) (components ++ spaceComponents (p.after t) gap ++ more) := by
  have hspace := isSpace_of_spacing hgap
  refine ht.join hu (fun rest => ?_) (fun rest => ?_) (inert_spaceComponents _ _)
  · obtain ⟨c, cs, rfl⟩ := List.exists_cons_of_ne_nil hne
    have hc : isSpace c = true := hspace c List.mem_cons_self
    simp [endsWord, hc]
  · exact lexes_spaces hspace (hu.not_space rest)

/-- Two spelled texts with a mark between them, and perhaps spaces after it. -/
theorem mark {c : Char} (hc : isMark c = true) (hsemicolon : c ≠ ';')
    (ht : Spelled p t components) (hu : Spelled (p.after (t ++ c :: gap)) u more)
    (hgap : Spacing gap) :
    Spelled p (t ++ c :: gap ++ u)
      (components ++ (.leaf (p.after t) (.literal [c])
        :: spaceComponents (p.after (t ++ [c])) gap) ++ more) := by
  have hliteral : Inert (.leaf (p.after t) (.literal [c])) :=
    inert_leaf rfl fun h => hsemicolon (by simpa using h)
  refine ht.join hu (fun rest => ?_) (fun rest => ?_) ?_
  · simp [endsWord, hc]
  · rw [Position.after_append]
    refine Lexes.append (t := [c]) (lexes_mark hc (p.after t) _) ?_
    exact lexes_spaces (isSpace_of_spacing hgap) (hu.not_space rest)
  · exact List.forall_mem_cons.2 ⟨hliteral, inert_spaceComponents _ _⟩

/-- A word with an exclamation mark right before it. -/
theorem bang (h : Text.isPlainWord t = true) (p : Position) :
    Spelled p ('!' :: t) [.leaf p (.literal ['!']), .leaf (p.after ['!']) (.ident t)] where
  lexes rest hrest := by
    refine Lexes.append (t := ['!']) (lexes_mark rfl p _) ?_
    exact lexes_word (Text.isName_of_isPlainWord h) hrest _
  inert c hc := by
    rcases List.mem_pair.1 hc with rfl | rfl
    · exact inert_leaf rfl nofun
    · exact inert_ident _ t
  start := rfl
  position := rfl
  first := rfl
  last := rfl

end Spelled

/-! ## Phrases -/

/-- The components of further words, each after a space. -/
def tailComponents (p : Position) : List Text → List Component
  | [] => []
  | word :: words =>
    .leaf p (.whitespace [' ']) :: .leaf (p.after [' ']) (.ident word)
      :: tailComponents (p.after (' ' :: word)) words

/-- A spelled text with further words after it. -/
theorem Spelled.spaced {p : Position} {t : Text} {components : List Component} {words : List Text}
    (ht : Spelled p t components) (hwords : ∀ w ∈ words, Text.isPlainWord w = true) :
    Spelled p (t ++ Text.spaced words) (components ++ tailComponents (p.after t) words) := by
  induction words generalizing t components with
  | nil => simpa [Text.spaced, tailComponents] using ht
  | cons word words ih =>
    obtain ⟨hword, hrest⟩ := List.forall_mem_cons.1 hwords
    -- the next word joins the text, and the others follow the longer text
    have hjoin : Spelled p (t ++ [' '] ++ word) _ :=
      ht.spaces (Spelled.word hword _) (by decide) (List.cons_ne_nil _ _)
    have hstep := ih hjoin hrest
    rw [List.append_assoc t, Position.after_append] at hstep
    simpa [Text.spaced, tailComponents, spaceComponents] using hstep

theorem Spelled.phrase {word : Text} {words : List Text} (hword : Text.isPlainWord word = true)
    (hwords : ∀ w ∈ words, Text.isPlainWord w = true) (p : Position) :
    Spelled p (word ++ Text.spaced words)
      (.leaf p (.ident word) :: tailComponents (p.after word) words) :=
  (Spelled.word hword p).spaced hwords

/-! ## Lists with commas -/

/-- The text is spelled wherever it stands, and it does not start like a directive. -/
def IsSpelled (t : Text) : Prop :=
  ∀ p, ∃ components, Spelled p t components ∧ components.head?.any isAtKeyword = false

theorem isSpelled_phrase {t : Text} (h : Text.isPhrase t = true) : IsSpelled t := by
  intro p
  obtain ⟨word, words, hword, hwords, rfl⟩ := Text.exists_words h
  exact ⟨_, Spelled.phrase hword hwords p, rfl⟩

/-- Spelled texts with commas between them, each followed by the same gap. -/
theorem isSpelled_intercalate {gap : Text} (hgap : Spacing gap) {texts : List Text}
    (hne : texts ≠ []) (htexts : ∀ t ∈ texts, IsSpelled t) :
    IsSpelled ((',' :: gap).intercalate texts) := by
  induction texts with
  | nil => exact absurd rfl hne
  | cons t texts ih =>
    obtain ⟨ht, hrest⟩ := List.forall_mem_cons.1 htexts
    cases texts with
    | nil => simpa using ht
    | cons u texts =>
      intro p
      -- the first text decides how the whole list starts
      obtain ⟨first, hfirst, hkeyword⟩ := ht p
      obtain ⟨more, hmore, -⟩ := ih nofun hrest (p.after (t ++ ',' :: gap))
      have hmark := Spelled.mark rfl (by decide) hfirst hmore hgap
      rw [List.intercalate_cons_cons]
      refine ⟨_, hmark, ?_⟩
      rw [List.append_assoc, hfirst.head?_append]
      exact hkeyword

end NestedSheet
