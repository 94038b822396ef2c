import NestedSheet.Proofs.Stretches
import NestedSheet.Proofs.Quotation
import NestedSheet.Proofs.SelectorText
import NestedSheet.Source.Read

/-!
# The text of a prelude

The text of a selector or a directive is cut out of the source, its comments are
removed, its lines are stripped, and they are joined by spaces.  None of this knows the
lexemes of the text.  This module says what becomes of its stretches: the comments go, the
runs of whitespace around them grow together, and those with a newline among them
become one space (`Stretch.respaced`).

This holds as long as no other stretch is taken for a comment or divided into lines, which
`Stretch.isSturdy` says of a single stretch.

Main results:

* `Stretch.removeComments_textOf`: removing comments removes the comments.
* `Stretch.intercalate_strippedLines`: the lines, joined by spaces, are the stretches with
  their whitespace changed.
-/

namespace NestedSheet

open Component

/-! ## The ends of comments -/

theorem afterCommentEnd?_cons {c : Char} {cs : Text} (h : ¬ (c = '*' ∧ cs.head? = some '/')) :
    afterCommentEnd? (c :: cs) = afterCommentEnd? cs := by
  rw [afterCommentEnd?]
  rintro ds rfl rfl
  exact h ⟨rfl, rfl⟩

theorem afterCommentEnd?_length_lt {t rest : Text} (h : afterCommentEnd? t = some rest) :
    rest.length + 2 ≤ t.length := by
  fun_induction afterCommentEnd? t with
  | case1 => cases h
  | case2 cs =>
    obtain rfl := Option.some.inj h
    simp
  | case3 c cs _ ih =>
    have hlt := ih h
    rw [List.length_cons]
    omega

/-- A comment that is read to its end is complete. -/
theorem afterCommentEnd?_readComment (t : Text) :
    afterCommentEnd? t = some (Lexeme.readComment t).2 ∨ (Lexeme.readComment t).2 = [] := by
  fun_induction Lexeme.readComment t with
  | case1 => exact Or.inr rfl
  | case2 cs => exact Or.inl rfl
  | case3 c cs hend more ih =>
    rw [afterCommentEnd?]
    · exact ih
    · exact hend

/-- Where a comment ends does not depend on what follows it. -/
theorem afterCommentEnd?_local {rest : Text} : ∀ {u : Text},
    afterCommentEnd? (u ++ rest) = some rest → ∀ rest', afterCommentEnd? (u ++ rest') = some rest'
  | [], h, _ => by
    have hlt := afterCommentEnd?_length_lt h
    rw [List.nil_append] at hlt
    omega
  | [c], h, _ => by
    have hlt := afterCommentEnd?_length_lt h
    rw [List.singleton_append, List.length_cons] at hlt
    omega
  | c :: d :: u, h, rest' => by
    by_cases hend : c = '*' ∧ d = '/'
    · obtain ⟨rfl, rfl⟩ := hend
      have hu : u ++ rest = rest := Option.some.inj h
      rw [List.append_left_eq_self.1 hu]
      rfl
    · have hne : ∀ x, ¬ (c = '*' ∧ (d :: u ++ x).head? = some '/') := by simpa using hend
      rw [List.cons_append, afterCommentEnd?_cons (hne rest)] at h
      rw [List.cons_append, afterCommentEnd?_cons (hne rest')]
      exact afterCommentEnd?_local h rest'

/-! ## Which lexemes are comments and strings -/

namespace Lexeme

/-- A comment is what stands behind its mark. -/
theorem next_eq_comment {c : Char} {cs text rest : Text} (h : next c cs = (.comment text, rest)) :
    c = '/' ∧ ∃ ds, cs = '*' :: ds ∧ readComment ds = (text, rest) := by
  cases scanned_of_next h with
  | name _ _ h => cases h
  | number _ _ _ h => cases h
  | punctuation _ _ _ h =>
    cases h with
    | comment hc hcs hread => exact ⟨hc, _, hcs, hread⟩

/-- Whitespace is the run of spaces that a text starts with. -/
theorem next_eq_whitespace {c : Char} {cs text rest : Text}
    (h : next c cs = (.leaf (.whitespace text), rest)) :
    isSpace c = true ∧ text = c :: cs.takeWhile isSpace ∧ rest = cs.dropWhile isSpace := by
  cases scanned_of_next h with
  | whitespace hspace => exact ⟨hspace, rfl, rfl⟩
  | name _ _ h => cases h
  | number _ _ _ h => cases h
  | punctuation _ _ _ h => cases h

/-- A closing bracket is read before it is known what it closes. -/
theorem next_ne_unmatched {c : Char} {cs rest : Text} {bracket : Bracket} :
    next c cs ≠ (.leaf (.unmatched bracket), rest) := by
  intro h
  cases scanned_of_next h with
  | name _ _ h => cases h
  | number _ _ _ h => cases h
  | punctuation _ _ _ h => cases h

/-- A string is what stands behind its quote. -/
theorem next_eq_string {c : Char} {cs value rest : Text} {closed : Bool}
    (h : next c cs = (.leaf (.string value closed), rest)) : Text.isQuote c = true
      ∧ readString c cs = (value, if closed then .closed else .endOfText, rest) := by
  cases scanned_of_next h with
  | name _ _ h => cases h
  | number _ _ _ h => cases h
  | punctuation _ _ _ h =>
    cases h with
    | string hc hread => exact ⟨hc, hread⟩
    | openString hc hread => exact ⟨hc, hread⟩

end Lexeme

/-! ## Strings -/

theorem inside_append {q : Char} {t u : Text} (ht : ∀ c ∈ t, c ≠ q ∧ c ≠ '\\')
    (hu : Text.Inside q u) : Text.Inside q (t ++ u) := by
  induction t with
  | nil => exact hu
  | cons c cs ih =>
    obtain ⟨hc, hcs⟩ := List.forall_mem_cons.1 ht
    exact .char hc.1 hc.2 (ih hcs)

/-- The inside of a string may have escapes by code point, which are escapes of their
first digit. -/
theorem inside_escape {q c : Char} {e u : Text} (hq : Text.isQuote q = true) (he : Escape e c)
    (hu : Text.Inside q u) : Text.Inside q ('\\' :: (e ++ u)) := by
  have hhex : ∀ d, isHex d = true ∨ isSpace d = true → d ≠ q ∧ d ≠ '\\' := by
    intro d hd
    constructor
    · rintro rfl
      simp only [Text.isQuote, Bool.or_eq_true, beq_iff_eq] at hq
      rcases hq with rfl | rfl <;> simp [isHex, isSpace] at hd
    · rintro rfl
      simp [isHex, isSpace] at hd
  cases he with
  | char _ => exact .escape hu
  | digits hne hdigits _ =>
    obtain ⟨d, ds, rfl⟩ := List.exists_cons_of_ne_nil hne
    exact .escape (inside_append (fun x hx => hhex x (Or.inl (hdigits x (List.mem_cons_of_mem d hx)))) hu)
  | @spaced digits space hne hdigits _ hspace =>
    obtain ⟨d, ds, rfl⟩ := List.exists_cons_of_ne_nil hne
    refine .escape (inside_append (fun x hx => hhex x ?_) hu)
    rcases List.mem_append.1 hx with hx | hx
    · exact Or.inl (hdigits x (List.mem_cons_of_mem d hx))
    · rw [List.mem_singleton.1 hx]
      exact Or.inr hspace

/-- The body of a string is the inside of one also for the one who knows no escapes by code
point. -/
theorem inside_of_stringBody {quote stop : Char} (hq : Text.isQuote quote = true) {body value : Text}
    (h : StringBody quote stop body value) : Text.Inside quote body := by
  induction h with
  | nil => exact .nil
  | continued _ _ ih => exact .escape ih
  | escape _ he _ _ _ ih => exact inside_escape hq he ih
  | char hquote _ hc _ ih => exact .char hquote hc ih

/-- A string that is closed is complete for both. -/
theorem inside_readString {quote : Char} {s value rest : Text} (hq : Text.isQuote quote = true)
    (h : readString quote s = (value, .closed, rest)) :
    ∃ inside, s = inside ++ quote :: rest ∧ Text.Inside quote inside := by
  obtain ⟨body, stop, after, rfl, hbody, hstop⟩ := exists_stringBody h nofun
  cases hstop
  exact ⟨body, rfl, inside_of_stringBody hq hbody⟩

/-! ## Removing comments -/

section Removing

variable {rest : Text}

/-- Does a comment start somewhere in the text? -/
def hasCommentMark : Text → Bool
  | [] => false
  | c :: cs => (c == '/' && cs.head? == some '*') || hasCommentMark cs

theorem hasCommentMark_eq_false {t : Text} (h : '/' ∉ t) : hasCommentMark t = false := by
  induction t with
  | nil => rfl
  | cons c cs ih =>
    rw [List.mem_cons, not_or] at h
    rw [hasCommentMark, ih h.2, beq_eq_false_iff_ne.2 (Ne.symm h.1)]
    rfl

theorem removeComments_char {c : Char} (hquote : Text.isQuote c = false)
    (hmark : ¬ (c = '/' ∧ rest.head? = some '*')) :
    removeComments (c :: rest) = c :: removeComments rest := by
  have hspan : Text.completeSpan? (c :: rest) = none := by
    rw [Text.completeSpan?, if_neg (by simp [hquote])]
  have hcomment : afterComment? (c :: rest) = none := by
    unfold afterComment?
    split
    · next heq =>
      obtain ⟨rfl, rfl⟩ := List.cons.inj heq
      exact absurd ⟨rfl, rfl⟩ hmark
    · rfl
  rw [removeComments, commentStep, hspan]
  simp only [hcomment]
  rfl

/-- Text without quotes and without the start of a comment stays. -/
theorem removeComments_plain {t : Text} (hquote : ∀ c ∈ t, Text.isQuote c = false)
    (hmark : hasCommentMark t = false) (hend : t.getLast? = some '/' → rest.head? ≠ some '*') :
    removeComments (t ++ rest) = t ++ removeComments rest := by
  induction t with
  | nil => rfl
  | cons c cs ih =>
    obtain ⟨hc, hcs⟩ := List.forall_mem_cons.1 hquote
    simp only [hasCommentMark, Bool.or_eq_false_iff, Bool.and_eq_false_iff, beq_eq_false_iff_ne] at hmark
    have hstart : ¬ (c = '/' ∧ (cs ++ rest).head? = some '*') := by
      rintro ⟨rfl, hhead⟩
      cases cs with
      | nil => exact hend rfl hhead
      | cons d ds => exact hmark.1.elim (absurd rfl ·) (absurd hhead ·)
    have hend' : cs.getLast? = some '/' → rest.head? ≠ some '*' := by
      intro hlast
      refine hend ?_
      rw [List.getLast?_cons, hlast]
      rfl
    rw [List.cons_append, removeComments_char hc hstart, ih hcs hmark.2 hend', List.cons_append]

/-- Whitespace stays: it has neither quotes nor slashes. -/
theorem removeComments_spaces {t : Text} (h : ∀ c ∈ t, isSpace c = true) :
    removeComments (t ++ rest) = t ++ removeComments rest := by
  have hne : ∀ {d : Char}, isSpace d = false → d ∉ t := by
    intro d hd hmem
    rw [h d hmem] at hd
    cases hd
  refine removeComments_plain (fun c hc => ?_) (hasCommentMark_eq_false (hne rfl)) fun hlast =>
    absurd (List.mem_of_getLast? hlast) (hne rfl)
  rw [Bool.eq_false_iff]
  intro hquote
  simp only [Text.isQuote, Bool.or_eq_true, beq_iff_eq] at hquote
  rcases hquote with rfl | rfl
  · exact hne rfl hc
  · exact hne rfl hc

/-- A complete string stays. -/
theorem removeComments_quotation {span : Text} (h : Text.Quotation span) :
    removeComments (span ++ rest) = span ++ removeComments rest := by
  have hspan := Text.completeSpan?_eq_some_iff.2 ⟨h, Eq.refl (span ++ rest)⟩
  obtain ⟨q, inside, -, -, rfl⟩ := h.exists_cons
  rw [List.cons_append] at hspan ⊢
  rw [removeComments, commentStep, hspan]

/-- A complete comment goes. -/
theorem removeComments_comment {u : Text} (h : afterCommentEnd? (u ++ rest) = some rest) :
    removeComments ('/' :: '*' :: u ++ rest) = removeComments rest := by
  have hcomment : afterComment? ('/' :: '*' :: (u ++ rest)) = some rest := h
  have hspan : Text.completeSpan? ('/' :: '*' :: (u ++ rest)) = none := rfl
  rw [List.cons_append, List.cons_append, removeComments, commentStep, hspan]
  simp only [hcomment]
  rfl

end Removing

namespace Stretch

/-! ## Stretches of a prelude -/

/-- Is it a comment? -/
def isComment (a : Stretch) : Bool :=
  match a.lexeme with
  | .comment _ => true
  | _ => false

/-- Is it a run of whitespace? -/
def isSpace (a : Stretch) : Bool :=
  match a.lexeme with
  | .leaf (.whitespace _) => true
  | _ => false

/-- Is it a string that is closed? -/
def isString (a : Stretch) : Bool :=
  match a.lexeme with
  | .leaf (.string _ closed) => closed
  | _ => false

/-- Does the stretch stay as it is when comments are removed and lines are stripped?  It
stands on one line, has no blanks at its ends, and nothing in it is taken for a string
or a comment that it is not. -/
def isSturdy (a : Stretch) : Bool :=
  a.text.head?.any (fun c => !Text.isBlank c) && a.text.getLast?.any (fun c => !Text.isBlank c)
    && !a.text.contains '\n'
    && (a.isString || (!a.text.any Text.isQuote && !hasCommentMark a.text
      && (a.text == ['/'] || a.text.getLast? != some '/')))

section Sturdy

variable {a : Stretch}

/-- The text of a comment is a complete comment. -/
theorem Reads.removeComments_comment (h : a.Reads) (ha : a.isComment = true) (rest : Text) :
    removeComments (a.text ++ rest) = removeComments rest := by
  obtain ⟨text, lexeme⟩ := a
  cases lexeme with
  | comment inside =>
    obtain ⟨c, u, rfl, hnext⟩ := h ['*'] rfl
    obtain ⟨rfl, ds, hds, hread⟩ := Lexeme.next_eq_comment hnext
    have hend := (afterCommentEnd?_readComment ds).resolve_right (by rw [hread]; exact nofun)
    rw [hread] at hend
    -- the mark is part of the text, as the comment takes more than the mark
    cases u with
    | nil =>
      rw [List.nil_append] at hds
      obtain ⟨-, rfl⟩ := List.cons.inj hds
      cases hend
    | cons d ds' =>
      obtain ⟨rfl, rfl⟩ := List.cons.inj hds
      exact NestedSheet.removeComments_comment (afterCommentEnd?_local hend rest)
  | _ => cases ha

/-- The text of a string is a complete string. -/
theorem Reads.quotation (h : a.Reads) (ha : a.isString = true) : Text.Quotation a.text := by
  obtain ⟨text, lexeme⟩ := a
  unfold isString at ha
  split at ha
  · next value closed hlexeme =>
    obtain rfl : lexeme = .leaf (.string value closed) := hlexeme
    obtain ⟨c, u, rfl, hnext⟩ := h [] rfl
    rw [List.append_nil] at hnext
    obtain ⟨hquote, hread⟩ := Lexeme.next_eq_string hnext
    obtain rfl : closed = true := ha
    obtain ⟨inside, rfl, hinside⟩ := inside_readString hquote hread
    exact .intro hquote hinside
  · cases ha

/-- What is sturdy stays, unless it is a slash and a star follows. -/
theorem Reads.removeComments_sturdy (h : a.Reads) (ha : a.isSturdy = true) {rest : Text}
    (hslash : a.text = ['/'] → rest.head? ≠ some '*') :
    removeComments (a.text ++ rest) = a.text ++ removeComments rest := by
  simp only [isSturdy, Bool.and_eq_true, Bool.or_eq_true, Bool.not_eq_true', List.any_eq_false,
    beq_iff_eq, bne_iff_ne, Bool.not_eq_true] at ha
  rcases ha.2 with hstring | ⟨⟨hquote, hmark⟩, hlast⟩
  · exact removeComments_quotation (h.quotation hstring)
  · exact removeComments_plain hquote hmark fun hend => hslash (hlast.resolve_right (absurd hend))

/-- A slash by itself does not start a comment. -/
theorem slash_of_ofText {t : Text} {lexeme : Lexeme} {before after : List Stretch}
    (h : ofText t = before ++ ⟨['/'], lexeme⟩ :: after) : (textOf after).head? ≠ some '*' := by
  intro hhead
  obtain ⟨ds, hds⟩ := List.head?_eq_some_iff.1 hhead
  have hend := ofText_end h
  obtain ⟨u, rest, lexeme', hu, hnext, hcons⟩ := exists_ofText_cons '/' (textOf after)
  rw [textOf_cons, List.singleton_append, hcons] at hend
  obtain ⟨hfirst, -⟩ := List.cons.inj hend
  obtain ⟨hu', -⟩ := Stretch.mk.inj hfirst
  obtain rfl : u = [] := (List.cons.inj hu').2
  -- behind the two characters a comment starts, and it takes them both
  have hcomment : Lexeme.next '/' ('*' :: ds)
      = (.comment (Lexeme.readComment ds).1, (Lexeme.readComment ds).2) := by
    rw [IsPunctuation.next ⟨rfl, rfl, rfl, by decide⟩]
    rfl
  rw [hds, hcomment] at hnext
  have hle := Lexeme.readComment_length ds
  have hlength := congrArg List.length hu
  rw [(Prod.mk.inj hnext).2] at hle
  rw [hds, List.nil_append, List.length_cons] at hlength
  omega

theorem trimmed_of_isSturdy (h : a.isSturdy = true) : Text.Trimmed a.text ∧ '\n' ∉ a.text := by
  simp only [isSturdy, Bool.and_eq_true, Bool.not_eq_true', List.contains_eq_mem,
    decide_eq_false_iff_not] at h
  exact ⟨⟨h.1.1.1, h.1.1.2⟩, h.1.2⟩

/-- The text of whitespace is what it says. -/
theorem Reads.whitespace (h : a.Reads) (ha : a.isSpace = true) :
    a.lexeme = .leaf (.whitespace a.text) ∧ ∀ c ∈ a.text, Component.isSpace c = true := by
  obtain ⟨text, lexeme⟩ := a
  unfold isSpace at ha
  split at ha
  · next value hlexeme =>
    obtain rfl : lexeme = .leaf (.whitespace value) := hlexeme
    obtain ⟨c, u, rfl, hnext⟩ := h [] rfl
    rw [List.append_nil] at hnext
    obtain ⟨hc, hvalue, hrest⟩ := Lexeme.next_eq_whitespace hnext
    have hall : u.takeWhile Component.isSpace = u := by
      have happend := @List.takeWhile_append_dropWhile _ Component.isSpace u
      rwa [← hrest, List.append_nil] at happend
    rw [hall] at hvalue
    refine ⟨congrArg (fun t => Lexeme.leaf (.whitespace t)) hvalue, fun d hd => ?_⟩
    rcases List.mem_cons.1 hd with rfl | hd
    · exact hc
    · rw [← hall] at hd
      exact List.mem_takeWhile_imp hd
  · cases ha

/-- **Removing comments removes the comments.** -/
theorem removeComments_textOf {t : Text} {stretches after : List Stretch} (hafter : after ≠ [])
    (hsturdy : ∀ a ∈ stretches, a.isComment = true ∨ a.isSpace = true ∨ a.isSturdy = true) :
    ∀ {before : List Stretch}, ofText t = before ++ (stretches ++ after) →
      removeComments (textOf stretches) = textOf (stretches.filter fun a => !a.isComment) := by
  induction stretches with
  | nil =>
    intro before _
    rw [textOf_nil, removeComments]
    rfl
  | cons a stretches ih =>
    intro before h
    obtain ⟨ha, hrest⟩ := List.forall_mem_cons.1 hsturdy
    have hmore := ih hrest (h.trans (List.append_cons before a (stretches ++ after)))
    have hreads : a.Reads := reads_of_ofText (List.append_ne_nil_of_right_ne_nil _ hafter) h
    rw [textOf_cons]
    cases hcomment : a.isComment with
    | true =>
      rw [List.filter_cons_of_neg (by simp [hcomment]), hreads.removeComments_comment hcomment, hmore]
    | false =>
      rw [List.filter_cons_of_pos (by simp [hcomment]), textOf_cons, ← hmore]
      rcases ha with ha | ha | ha
      · rw [hcomment] at ha
        cases ha
      · exact removeComments_spaces (hreads.whitespace ha).2
      · refine hreads.removeComments_sturdy ha fun htext hhead => ?_
        -- a slash that is a stretch has no star behind it
        obtain ⟨text, lexeme⟩ := a
        obtain rfl : text = ['/'] := htext
        refine slash_of_ofText (h.trans (congrArg (before ++ ·) (List.cons_append ..))) ?_
        obtain ⟨ds, hds⟩ := List.head?_eq_some_iff.1 hhead
        rw [textOf_append, hds]
        rfl

end Sturdy

/-! ## Changing the whitespace -/

/-- A run of whitespace. -/
def space (t : Text) : Stretch :=
  ⟨t, .leaf (.whitespace t)⟩

/-- What becomes of the whitespace between two words: if they stand on different lines,
one space. -/
def squeezed (gap : Text) : Text :=
  if '\n' ∈ gap then [' '] else gap

/-- The stretches behind a word and some whitespace, with every run of whitespace as it
is between two words and without the last one. -/
def respace (gap : Text) : List Stretch → List Stretch
  | [] => []
  | a :: stretches =>
    if a.isSpace then respace (gap ++ a.text) stretches
    else if gap = [] then a :: respace [] stretches
    else space (squeezed gap) :: a :: respace [] stretches

/-- What the text of a prelude is made of: no comments, and the whitespace that is left
changed. -/
def respaced (stretches : List Stretch) : List Stretch :=
  respace [] (stretches.filter fun a => !a.isComment)

end Stretch

/-! ## Lines -/

namespace Text

/-- Blanks at the start of a text make no difference to its lines. -/
theorem strippedLines_lead {before : Text} (hbefore : ∀ c ∈ before, isBlank c = true) (t : Text) :
    strippedLines (before ++ t) = strippedLines t := by
  induction before with
  | nil => rfl
  | cons c cs ih =>
    obtain ⟨hc, hcs⟩ := List.forall_mem_cons.1 hbefore
    rw [← ih hcs, List.cons_append]
    obtain ⟨line, lines, hcut⟩ := List.exists_cons_of_ne_nil (cut_ne_nil '\n' (cs ++ t))
    rw [strippedLines, strippedLines, cut, hcut]
    split
    · rfl
    · -- the blank is trimmed from the first line
      have hstrip : strip (c :: line) = strip line := by
        rw [strip, stripStart, List.dropWhile_cons_of_pos hc, ← stripStart, ← strip]
      simp only [List.map_cons, hstrip]

/-- Trimming does not reach beyond a character that is not blank. -/
theorem strip_append {t u : Text} (ht : Trimmed t) (hu : Trimmed u) (gap rest : Text) :
    strip (t ++ (gap ++ (u ++ rest))) = t ++ (gap ++ strip (u ++ rest)) := by
  obtain ⟨c, cs, rfl⟩ := List.exists_cons_of_ne_nil ht.ne_nil
  obtain ⟨d, ds, rfl⟩ := List.exists_cons_of_ne_nil hu.ne_nil
  have hc : isBlank c = false := by simpa using ht.first
  have hd : isBlank d = false := by simpa using hu.first
  have hstart : ∀ {e : Char} {x : Text}, isBlank e = false → stripStart (e :: x) = e :: x := by
    intro e x he
    rw [stripStart, List.dropWhile_cons_of_neg (by simp [he])]
  rw [strip, strip, List.cons_append, List.cons_append, hstart hc, hstart hd, stripEnd, stripEnd,
    ← List.cons_append, ← List.append_assoc, dropEndWhile_append_cons hd, List.append_assoc]
  exact congrArg (fun x => c :: cs ++ (gap ++ x)) (dropEndWhile_append_cons hd [] (ds ++ rest)).symm

end Text

theorem isBlank_of_isSpace {c : Char} (h : isSpace c = true) : Text.isBlank c = true := by
  simp only [isSpace, Bool.or_eq_true, beq_iff_eq] at h
  rcases h with (rfl | rfl) | rfl <;> rfl

theorem intercalate_space_cons (line : Text) {lines : List Text} (h : lines ≠ []) :
    [' '].intercalate (line :: lines) = line ++ ' ' :: [' '].intercalate lines := by
  obtain ⟨next, more, rfl⟩ := List.exists_cons_of_ne_nil h
  rw [List.intercalate_cons_cons, List.append_assoc, List.singleton_append]

/-- Where the whitespace between two words breaks the line, the first of them ends a line. -/
theorem Text.strippedLines_break {line gap word : Text} (hline : Trimmed line) (hnewline : '\n' ∉ line)
    (hword : Trimmed word) (hgap : ∀ c ∈ gap, isSpace c = true) (hbreak : '\n' ∈ gap) (rest : Text) :
    strippedLines (strip (line ++ (gap ++ (word ++ rest))))
      = line :: strippedLines (strip (word ++ rest)) := by
  obtain ⟨before, after, rfl, hbefore⟩ := List.eq_append_cons_of_mem hbreak
  have hblank : ∀ c ∈ before ++ '\n' :: after, isBlank c = true := fun c hc =>
    isBlank_of_isSpace (hgap c hc)
  have hfirst : strip (line ++ before) = line :=
    @Trimmed.strip_append [] line before hline nofun fun c hc =>
      hblank c (List.mem_append_left _ hc)
  rw [strip_append hline hword, List.append_assoc, ← List.append_assoc line, List.cons_append,
    strippedLines_append (by simp [hnewline, hbefore]) hfirst hline.ne_nil]
  -- the blanks behind the break are those at the start of the next line
  exact congrArg (line :: ·) (strippedLines_lead
    (fun c hc => hblank c (List.mem_append_right _ (List.mem_cons_of_mem _ hc))) _)

/-- **Lines joined by spaces.**  The lines of a word with whitespace and further
stretches behind it, joined by spaces, are these with their whitespace changed. -/
theorem Stretch.intercalate_strippedLines {stretches : List Stretch}
    (hsturdy : ∀ a ∈ stretches, (a.isSpace = true → ∀ c ∈ a.text, Component.isSpace c = true)
      ∧ (a.isSpace = false → a.isSturdy = true)) :
    ∀ {line gap : Text}, Text.Trimmed line → '\n' ∉ line → (∀ c ∈ gap, Component.isSpace c = true) →
      [' '].intercalate (Text.strippedLines (Text.strip (line ++ (gap ++ textOf stretches))))
        = line ++ textOf (respace gap stretches) := by
  induction stretches with
  | nil =>
    intro line gap hline hnewline hgap
    have hstrip : Text.strip (line ++ (gap ++ [])) = line := by
      rw [List.append_nil]
      exact @Text.Trimmed.strip_append [] line gap hline nofun fun c hc => isBlank_of_isSpace (hgap c hc)
    rw [textOf_nil, hstrip, strippedLines_single hnewline hline.strip_eq hline.ne_nil,
      List.intercalate_singleton, respace, textOf_nil, List.append_nil]
  | cons a stretches ih =>
    intro line gap hline hnewline hgap
    obtain ⟨ha, hrest⟩ := List.forall_mem_cons.1 hsturdy
    have hnone : ∀ c ∈ ([] : Text), Component.isSpace c = true := nofun
    rw [textOf_cons, respace]
    split
    · next hspace =>
      -- the whitespace grows
      have hmore : ∀ c ∈ gap ++ a.text, Component.isSpace c = true := by
        intro c hc
        rcases List.mem_append.1 hc with hc | hc
        · exact hgap c hc
        · exact ha.1 hspace c hc
      rw [← List.append_assoc gap, ih hrest hline hnewline hmore]
    · next hspace =>
      obtain ⟨htrimmed, hone⟩ := trimmed_of_isSturdy (ha.2 (Bool.eq_false_iff.2 hspace))
      by_cases hbreak : '\n' ∈ gap
      · -- the word is the first one of its line
        have hlines := ih hrest htrimmed hone hnone
        rw [List.nil_append] at hlines
        have hnext : Text.strippedLines (Text.strip (a.text ++ textOf stretches)) ≠ [] := by
          intro hempty
          rw [hempty] at hlines
          exact htrimmed.ne_nil (List.append_eq_nil_iff.1 hlines.symm).1
        rw [Text.strippedLines_break hline hnewline htrimmed hgap hbreak,
          intercalate_space_cons line hnext, hlines, if_neg (List.ne_nil_of_mem hbreak), textOf_cons,
          textOf_cons, space, squeezed, if_pos hbreak]
        rfl
      · -- the word goes on with the line
        have hline' : Text.Trimmed (line ++ gap ++ a.text) := hline.append gap htrimmed
        have hnewline' : '\n' ∉ line ++ gap ++ a.text := by simp [hnewline, hbreak, hone]
        have hlines := ih hrest hline' hnewline' hnone
        rw [List.nil_append] at hlines
        rw [← List.append_assoc gap, ← List.append_assoc line, ← List.append_assoc line, hlines]
        split
        · next hempty => rw [hempty, List.append_nil, List.append_assoc, textOf_cons]
        · rw [textOf_cons, textOf_cons, space, squeezed, if_neg hbreak, List.append_assoc,
            List.append_assoc]

theorem joinLines_ne_nil (line : Text) (lines : List Text) : joinLines line lines ≠ [] := by
  fun_induction joinLines line lines with
  | case1 => nofun
  | case2 => nofun
  | case3 current line lines _ ih => exact ih

/-- Which lines are put together makes no difference once all of them are. -/
theorem intercalate_joinLines (line : Text) (lines : List Text) :
    [' '].intercalate (joinLines line lines) = [' '].intercalate (line :: lines) := by
  fun_induction joinLines line lines with
  | case1 => rfl
  | case2 current line lines _ ih =>
    rw [intercalate_space_cons _ (joinLines_ne_nil line lines), ih,
      intercalate_space_cons _ (List.cons_ne_nil line lines)]
  | case3 current line lines _ ih =>
    rw [ih, intercalate_space_cons _ (List.cons_ne_nil line lines)]
    cases lines with
    | nil => rw [List.intercalate_singleton, List.intercalate_singleton]
    | cons next more =>
      rw [intercalate_space_cons _ (List.cons_ne_nil next more),
        intercalate_space_cons _ (List.cons_ne_nil next more), List.append_assoc, List.cons_append]

theorem intercalate_selectorLines (t : Text) :
    [' '].intercalate (selectorLines t) = [' '].intercalate (Text.strippedLines t) := by
  unfold selectorLines
  split
  · next hlines => rw [hlines]
  · next line lines hlines => rw [hlines, intercalate_joinLines]

namespace Stretch

/-! ## The stretches of the text -/

/-- Can the comments and line breaks between the stretches be removed?  Each of them
stays as it is by itself, and ends before those that are then behind it. -/
def areRobust (stretches : List Stretch) : Bool :=
  stretches.all (fun a => a.isComment || a.isSpace || a.isSturdy) && chained (respaced stretches)

theorem reads_space {t : Text} (hne : t ≠ []) (h : ∀ c ∈ t, Component.isSpace c = true) :
    (space t).Reads := by
  obtain ⟨c, u, rfl⟩ := List.exists_cons_of_ne_nil hne
  obtain ⟨hc, hu⟩ := List.forall_mem_cons.1 h
  intro rest hstops
  have hrest : rest.head?.any Component.isSpace = false := by simpa [space, Lexeme.stops] using hstops
  refine ⟨c, u, rfl, ?_⟩
  rw [Lexeme.next, if_pos hc, takeWhile_run hu hrest, dropWhile_run hu hrest]
  rfl

/-- Changing the whitespace between stretches leaves them to be found. -/
theorem reads_respace {stretches : List Stretch} (h : ∀ a ∈ stretches, a.Reads) :
    ∀ {gap : Text}, (∀ c ∈ gap, Component.isSpace c = true) →
      ∀ a ∈ respace gap stretches, a.Reads := by
  induction stretches with
  | nil =>
    intro gap _ a ha
    cases ha
  | cons b stretches ih =>
    intro gap hgap a ha
    obtain ⟨hb, hrest⟩ := List.forall_mem_cons.1 h
    have hnone : ∀ c ∈ ([] : Text), Component.isSpace c = true := nofun
    rw [respace] at ha
    split at ha
    · -- whitespace is put behind what was gathered before it
      next hspace =>
      refine ih hrest (fun c hc => ?_) a ha
      rcases List.mem_append.1 hc with hc | hc
      · exact hgap c hc
      · exact (hb.whitespace hspace).2 c hc
    split at ha
    · rcases List.mem_cons.1 ha with rfl | ha
      · exact hb
      · exact ih hrest hnone a ha
    · -- and goes before the next word as one stretch
      next hne =>
      rcases List.mem_cons.1 ha with rfl | ha
      · unfold squeezed
        split
        · exact reads_space nofun (by simp [Component.isSpace])
        · exact reads_space hne hgap
      · rcases List.mem_cons.1 ha with rfl | ha
        · exact hb
        · exact ih hrest hnone a ha

/-- Changing the whitespace between stretches brings no characters but spaces. -/
theorem mem_respace {c : Char} {stretches : List Stretch} : ∀ {gap : Text},
    c ∈ textOf (respace gap stretches) → c = ' ' ∨ c ∈ gap ∨ c ∈ textOf stretches := by
  induction stretches with
  | nil =>
    intro gap hc
    cases hc
  | cons a stretches ih =>
    intro gap hc
    rw [respace] at hc
    rw [textOf_cons, List.mem_append]
    split at hc
    · rcases ih hc with hc | hc | hc
      · exact Or.inl hc
      · rcases List.mem_append.1 hc with hc | hc
        · exact Or.inr (Or.inl hc)
        · exact Or.inr (Or.inr (Or.inl hc))
      · exact Or.inr (Or.inr (Or.inr hc))
    have hmore : c ∈ textOf (a :: respace [] stretches) → c = ' ' ∨ c ∈ a.text ∨ c ∈ textOf stretches := by
      intro hc
      rw [textOf_cons] at hc
      rcases List.mem_append.1 hc with hc | hc
      · exact Or.inr (Or.inl hc)
      · exact (ih hc).imp_right (·.resolve_left nofun |> Or.inr)
    split at hc
    · exact (hmore hc).imp_right Or.inr
    · rw [textOf_cons] at hc
      rcases List.mem_append.1 hc with hc | hc
      · rw [space, squeezed] at hc
        split at hc
        · exact Or.inl (List.mem_singleton.1 hc)
        · exact Or.inr (Or.inl hc)
      · exact (hmore hc).imp_right Or.inr

theorem mem_respaced {c : Char} {stretches : List Stretch} (h : c ∈ textOf (respaced stretches)) :
    c = ' ' ∨ c ∈ textOf stretches := by
  rcases mem_respace h with hc | hc | hc
  · exact Or.inl hc
  · cases hc
  · obtain ⟨a, ha, hc⟩ := List.mem_flatMap.1 hc
    exact Or.inr (List.mem_flatMap.2 ⟨a, (List.mem_filter.1 ha).1, hc⟩)

section Stored

variable {t : Text} {before stretches after : List Stretch} (hafter : after ≠ [])
  (h : ofText t = before ++ (stretches ++ after))

include hafter h

theorem reads_of_mem : ∀ a ∈ stretches, a.Reads := by
  intro a ha
  obtain ⟨init, rest, rfl⟩ := List.append_of_mem ha
  have hsplit : ofText t = (before ++ init) ++ a :: (rest ++ after) := by
    rw [h]
    simp
  exact reads_of_ofText (List.append_ne_nil_of_right_ne_nil rest hafter) hsplit

/-- The stretches of a stored text are those that it was made from, without comments and
with the whitespace changed. -/
theorem ofText_respaced (hchained : chained (respaced stretches) = true) :
    ofText (textOf (respaced stretches)) = respaced stretches := by
  refine ofText_textOf (reads_respace (fun a ha => ?_) nofun) hchained
  exact reads_of_mem hafter h a (List.mem_filter.1 ha).1

/-- **What is stored of a text is its stretches**, without comments and with the
whitespace changed. -/
theorem intercalate_removeComments
    (hsturdy : ∀ a ∈ stretches, a.isComment = true ∨ a.isSpace = true ∨ a.isSturdy = true)
    {first : Stretch} {rest : List Stretch} (hcons : stretches = first :: rest)
    (hcomment : first.isComment = false) (hspace : first.isSpace = false) :
    [' '].intercalate (Text.strippedLines (Text.strip (removeComments (textOf stretches))))
      = textOf (respaced stretches) := by
  have hreads := reads_of_mem hafter h
  have hremove := removeComments_textOf hafter hsturdy h
  rw [hremove]
  subst hcons
  obtain ⟨hfirst, hrest⟩ := List.forall_mem_cons.1 hsturdy
  have hstrong : first.isSturdy = true := by simpa [hcomment, hspace] using hfirst
  obtain ⟨htrimmed, hline⟩ := trimmed_of_isSturdy hstrong
  have hmore : ∀ a ∈ rest.filter fun a => !a.isComment,
      (a.isSpace = true → ∀ c ∈ a.text, Component.isSpace c = true)
        ∧ (a.isSpace = false → a.isSturdy = true) := by
    intro a ha
    obtain ⟨hmem, hnot⟩ := List.mem_filter.1 ha
    have hnot : a.isComment = false := by simpa using hnot
    refine ⟨fun hs => ((hreads a (List.mem_cons_of_mem _ hmem)).whitespace hs).2, fun hs => ?_⟩
    simpa [hnot, hs] using hrest a hmem
  have hlines := @intercalate_strippedLines _ hmore first.text [] htrimmed hline nofun
  rw [respaced, List.filter_cons_of_pos (by simp [hcomment]), textOf_cons, respace,
    if_neg (by simp [hspace]), if_pos rfl, textOf_cons]
  exact hlines

end Stored

end Stretch

end NestedSheet
