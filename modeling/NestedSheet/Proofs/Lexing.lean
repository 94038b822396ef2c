import NestedSheet.Component.Nest

/-!
# Components of a text in its place

The components of a text do not depend on what stands before it, and on what stands
behind it only through the first character there.  `Lexes p t components rest` says
that a text at a position has these components when `rest` follows: reading goes on
behind it as if they had been read already, whatever is open around them, and no integer
of the text has too many digits.  Texts that follow each other have the components of both,
and braces around a text make one component of it.

Main results: `Lexes.append`, `Lexes.braces`, `Lexes.parse`, and for single
components `lexes_leaf`, `lexes_mark`, `lexes_spaces`, `lexes_word`, `lexes_atWord`.
-/

namespace NestedSheet

open Component

/-- The text at the position has the components, if `rest` follows it. -/
structure Lexes (p : Position) (t : Text) (components : List Component) (rest : Text) : Prop where
  nest : ∀ frames inside, Component.nest frames inside (Lexeme.scan p (t ++ rest))
    = Component.nest frames (components.reverse ++ inside) (Lexeme.scan (p.after t) rest)
  short : Lexeme.firstExcess? (Lexeme.scan p (t ++ rest))
    = Lexeme.firstExcess? (Lexeme.scan (p.after t) rest)

/-! ## Texts that follow each other -/

theorem Lexes.nil (p : Position) (rest : Text) : Lexes p [] [] rest :=
  ⟨fun _ _ => rfl, rfl⟩

theorem Lexes.append {p : Position} {t u rest : Text} {components more : List Component}
    (ht : Lexes p t components (u ++ rest)) (hu : Lexes (p.after t) u more rest) :
    Lexes p (t ++ u) (components ++ more) rest where
  nest frames inside := by
    rw [List.append_assoc, ht.nest, hu.nest, Position.after_append, List.reverse_append,
      List.append_assoc]
  short := by rw [List.append_assoc, ht.short, hu.short, Position.after_append]

/-- The components of a whole text. -/
theorem Lexes.ofText {t : Text} {components : List Component} (h : Lexes {} t components []) :
    Component.ofText t = components := by
  have hnest := h.nest [] []
  rw [List.append_nil, List.append_nil] at hnest
  rw [Component.ofText, hnest, Lexeme.scan, Component.nest, closeAll, List.foldl_nil,
    List.reverse_reverse]

/-- A whole text is read as its components. -/
theorem Lexes.parse {t : Text} {components : List Component} (h : Lexes {} t components []) :
    Component.parse t = .ok components := by
  have hshort := h.short
  rw [List.append_nil, Lexeme.scan] at hshort
  rw [Component.parse, hshort]
  exact congrArg Except.ok h.ofText

/-! ## Single lexemes -/

/-- What is scanned after a lexeme starts where the lexeme ends. -/
theorem scan_next {c : Char} {t rest : Text} {lexeme : Lexeme} (p : Position)
    (h : Lexeme.next c (t ++ rest) = (lexeme, rest)) :
    Lexeme.scan p (c :: t ++ rest) = (p, lexeme) :: Lexeme.scan (p.after (c :: t)) rest := by
  -- the scanner finds what it has read by the lengths before and after
  have htaken : (c :: (t ++ rest)).take ((t ++ rest).length + 1 - rest.length) = c :: t := by
    rw [List.length_append, show t.length + rest.length + 1 - rest.length = t.length + 1 by omega,
      List.take_succ_cons, List.take_left]
  rw [List.cons_append, Lexeme.scan]
  simp only [h, htaken]

/-- A lexeme that is no integer with too many digits leaves the first of them to the rest. -/
theorem firstExcess?_next {c : Char} {t rest : Text} {lexeme : Lexeme} (p : Position)
    (h : Lexeme.next c (t ++ rest) = (lexeme, rest)) (hshort : lexeme.excess? = none) :
    Lexeme.firstExcess? (Lexeme.scan p (c :: t ++ rest))
      = Lexeme.firstExcess? (Lexeme.scan (p.after (c :: t)) rest) := by
  rw [scan_next p h, Lexeme.firstExcess?_cons hshort]

theorem lexes_leaf {p : Position} {c : Char} {t rest : Text} {leaf : Leaf}
    (h : Lexeme.next c (t ++ rest) = (.leaf leaf, rest))
    (hshort : (Lexeme.leaf leaf).excess? = none) :
    Lexes p (c :: t) [.leaf p leaf] rest where
  nest frames inside := by
    rw [scan_next p h, nest]
    rfl
  short := firstExcess?_next p h hshort

/-- A character that is no space and that starts neither a name nor a number. -/
structure IsPunctuation (c : Char) : Prop where
  notSpace : isSpace c = false
  notName : isNameStart c = false
  notDigit : c.isDigit = false
  notSign : c ≠ '-' ∧ c ≠ '+' ∧ c ≠ '.' ∧ c ≠ '\\'

theorem readRange?_eq_none {c : Char} {cs : Text}
    (h : isNameStart c = false ∨ cs.head? ≠ some '+') : readRange? c cs = none := by
  unfold readRange?
  split
  · next d ds =>
    rcases h with h | h
    · refine if_neg fun hc => ?_
      rcases hc.1 with rfl | rfl <;> cases h
    · exact absurd rfl h
  · rfl

theorem startsEscape_eq_false {c : Char} (cs : Text) (hc : c ≠ '\\') :
    startsEscape (c :: cs) = false := by
  unfold startsEscape
  split <;> simp_all

/-- Punctuation is read by itself or with the marks that belong to it. -/
theorem IsPunctuation.next {c : Char} (h : IsPunctuation c) (rest : Text) :
    Lexeme.next c rest = Lexeme.punctuation c rest := by
  obtain ⟨hminus, hplus, hpoint, hescape⟩ := h.notSign
  have hident : startsIdent (c :: rest) = false := by
    simp [startsIdent, h.notName, startsEscape_eq_false rest hescape, hminus]
  have hnumber : readNumber? (c :: rest) = none := by
    simp [readNumber?, readSign_stop ⟨hplus, hminus⟩, readMantissa?, h.notDigit, hpoint]
  -- every other kind of lexeme is tried first, and none of them starts like this
  unfold Lexeme.next
  rw [if_neg (by simp [h.notSpace]), readRange?_eq_none (Or.inl h.notName)]
  simp only
  rw [if_neg (by simp [hminus]), if_neg (by simp [hident]), hnumber]

/-- The marks that stand for themselves whatever follows. -/
def isMark (c : Char) : Bool :=
  c == ',' || c == ':' || c == ';' || c == '!'

theorem next_mark {c : Char} (hc : isMark c = true) (rest : Text) :
    Lexeme.next c ([] ++ rest) = (.leaf (.literal [c]), rest) := by
  simp only [isMark, Bool.or_eq_true, beq_iff_eq] at hc
  rcases hc with ((rfl | rfl) | rfl) | rfl <;>
  · rw [IsPunctuation.next ⟨rfl, rfl, rfl, by decide⟩]
    rfl

theorem lexes_mark {c : Char} (hc : isMark c = true) (p : Position) (rest : Text) :
    Lexes p [c] [.leaf p (.literal [c])] rest :=
  lexes_leaf (next_mark hc rest) rfl

theorem next_openingBrace (rest : Text) : Lexeme.next '{' ([] ++ rest) = (.opening .curly, rest) := by
  rw [List.nil_append, IsPunctuation.next ⟨rfl, rfl, rfl, by decide⟩]
  rfl

theorem next_closingBrace (rest : Text) : Lexeme.next '}' ([] ++ rest) = (.closing .curly, rest) := by
  rw [List.nil_append, IsPunctuation.next ⟨rfl, rfl, rfl, by decide⟩]
  rfl

/-- A text between braces is one component. -/
theorem Lexes.braces {p : Position} {t rest : Text} {components : List Component}
    (h : Lexes (p.after ['{']) t components ('}' :: rest)) :
    Lexes p ('{' :: t ++ ['}']) [.block p .curly components] rest := by
  have htext : '{' :: t ++ ['}'] ++ rest = '{' :: [] ++ (t ++ '}' :: rest) := by simp
  have hclosing : '}' :: rest = '}' :: [] ++ rest := rfl
  have hafter : p.after ('{' :: t ++ ['}']) = ((p.after ['{']).after t).after ['}'] := by
    rw [show '{' :: t ++ ['}'] = ['{'] ++ t ++ ['}'] from rfl, Position.after_append,
      Position.after_append]
  constructor
  · -- the brace opens a frame, the text fills it, and the other brace closes it
    intro frames inside
    rw [htext, scan_next p (next_openingBrace _), Component.nest, h.nest, hclosing,
      scan_next _ (next_closingBrace rest), Component.nest]
    refine (if_pos rfl).trans ?_
    rw [Frame.close, List.append_nil, List.reverse_reverse, hafter]
    rfl
  · rw [htext, firstExcess?_next p (next_openingBrace _) rfl, h.short, hclosing,
      firstExcess?_next _ (next_closingBrace rest) rfl, hafter]

/-- A text behind a brace that nothing closes is one component up to the end. -/
theorem Lexes.unclosed {p : Position} {t : Text} {components : List Component}
    (h : Lexes (p.after ['{']) t components []) :
    Lexes p ('{' :: t) [.block p .curly components] [] := by
  have htext : '{' :: t ++ [] = '{' :: [] ++ (t ++ []) := rfl
  constructor
  · intro frames inside
    rw [htext, scan_next p (next_openingBrace _), Component.nest, h.nest, Lexeme.scan, Lexeme.scan,
      Component.nest, Component.nest, List.append_nil, closeAll, List.foldl_cons, Frame.close,
      List.reverse_reverse]
    rfl
  · rw [htext, firstExcess?_next p (next_openingBrace _) rfl, h.short, Lexeme.scan, Lexeme.scan]

/-! ## Spaces and words -/

/-- Spaces, tabs and newlines are one component, if there are any. -/
def spaceComponents (p : Position) (t : Text) : List Component :=
  if t = [] then [] else [.leaf p (.whitespace t)]

theorem lexes_spaces {p : Position} {t rest : Text} (ht : ∀ c ∈ t, isSpace c = true)
    (hrest : rest.head?.any isSpace = false) : Lexes p t (spaceComponents p t) rest := by
  cases t with
  | nil => exact Lexes.nil p rest
  | cons c cs =>
    have hcs : ∀ c ∈ cs, isSpace c = true := fun d hd => ht d (List.mem_cons_of_mem c hd)
    have hstop : rest.takeWhile isSpace = [] ∧ rest.dropWhile isSpace = rest := by
      cases rest with
      | nil => exact ⟨rfl, rfl⟩
      | cons d ds =>
        have hd : isSpace d = false := hrest
        simp [hd]
    refine lexes_leaf ?_ rfl
    unfold Lexeme.next
    rw [if_pos (ht c List.mem_cons_self), List.takeWhile_append_of_pos hcs,
      List.dropWhile_append_of_pos hcs, hstop.1, hstop.2, List.append_nil]

/-- A name is read up to a character that cannot be part of it. -/
theorem readName_append {t rest : Text} (ht : ∀ c ∈ t, isNameChar c = true)
    (hrest : rest.head?.any (fun c => isNameChar c || c == '\\') = false) :
    readName (t ++ rest) = (t, rest) := by
  induction t with
  | nil =>
    cases rest with
    | nil => rw [List.nil_append, readName]
    | cons c cs =>
      simp only [List.head?_cons, Option.any_some, Bool.or_eq_false_iff, beq_eq_false_iff_ne] at hrest
      rw [List.nil_append, readName, if_neg (by simp [hrest.1]),
        if_neg (by simp [startsEscape_eq_false cs hrest.2])]
  | cons c cs ih =>
    rw [List.cons_append, readName, if_pos (ht c List.mem_cons_self),
      ih fun d hd => ht d (List.mem_cons_of_mem c hd)]

/-- The text ends a word: it is empty or goes on with a space or with a mark. -/
def endsWord (t : Text) : Bool :=
  t.head?.all fun c => isSpace c || isMark c || c == '{' || c == '}'

theorem not_name_of_endsWord {rest : Text} (h : endsWord rest = true) :
    rest.head?.any (fun c => isNameChar c || c == '\\') = false := by
  cases rest with
  | nil => rfl
  | cons c cs =>
    simp only [endsWord, List.head?_cons, Option.all_some, isSpace, isMark, Bool.or_eq_true,
      beq_iff_eq] at h
    rcases h with ((((rfl | rfl) | rfl) | ((rfl | rfl) | rfl) | rfl) | rfl) | rfl <;> rfl

/-- What follows a word is not the bracket of a function or the plus of a range. -/
theorem head_ne_of_endsWord {rest : Text} (h : endsWord rest = true) :
    rest.head? ≠ some '(' ∧ rest.head? ≠ some '+' := by
  constructor <;>
  · intro heq
    rw [endsWord, heq] at h
    cases h

/-- A word in the sense of names: it starts like one and goes on like one. -/
structure IsName (t : Text) : Prop where
  start : t.head?.any isNameStart = true
  chars : ∀ c ∈ t, isNameChar c = true

theorem IsName.startsIdent {t : Text} (h : IsName t) (rest : Text) :
    startsIdent (t ++ rest) = true := by
  have hstart := h.start
  cases t with
  | nil => cases hstart
  | cons c cs =>
    have hc : isNameStart c = true := hstart
    simp [Component.startsIdent, hc]

theorem next_word {c : Char} {cs rest : Text} (h : IsName (c :: cs))
    (hrest : endsWord rest = true) :
    Lexeme.next c (cs ++ rest) = (.leaf (.ident (c :: cs)), rest) := by
  have hident := h.startsIdent rest
  have hname := readName_append h.chars (not_name_of_endsWord hrest)
  rw [List.cons_append] at hident hname
  have hc : isNameStart c = true := h.start
  have hspace : isSpace c = false := by
    rw [Bool.eq_false_iff]
    intro hs
    simp only [isSpace, Bool.or_eq_true, beq_iff_eq] at hs
    rcases hs with (rfl | rfl) | rfl <;> cases hc
  have hdash : c ≠ '-' := by
    rintro rfl
    cases hc
  -- no range: the next character is a letter, or what follows the word
  have hrange : readRange? c (cs ++ rest) = none := by
    apply readRange?_eq_none
    right
    cases cs with
    | nil => exact (head_ne_of_endsWord hrest).2
    | cons d ds =>
      intro hd
      have hd : d = '+' := Option.some.inj hd
      have hchar := h.chars d (by simp)
      rw [hd] at hchar
      cases hchar
  unfold Lexeme.next
  rw [if_neg (by simp [hspace]), hrange]
  simp only
  rw [if_neg (by simp [hdash]), if_pos hident, Lexeme.identLike]
  simp only [hname]
  split
  · exact absurd rfl (head_ne_of_endsWord hrest).1
  · rfl

theorem lexes_word {t rest : Text} (h : IsName t) (hrest : endsWord rest = true) (p : Position) :
    Lexes p t [.leaf p (.ident t)] rest := by
  cases t with
  | nil => cases h.start
  | cons c cs => exact lexes_leaf (next_word h hrest) rfl

theorem lexes_atWord {t rest : Text} (h : IsName t) (hrest : endsWord rest = true) (p : Position) :
    Lexes p ('@' :: t) [.leaf p (.atKeyword t)] rest := by
  refine lexes_leaf ?_ rfl
  rw [IsPunctuation.next ⟨rfl, rfl, rfl, by decide⟩]
  show Lexeme.atSign (t ++ rest) = _
  rw [Lexeme.atSign, if_pos (h.startsIdent rest),
    readName_append h.chars (not_name_of_endsWord hrest)]

end NestedSheet
