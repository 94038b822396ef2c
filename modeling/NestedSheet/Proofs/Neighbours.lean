import NestedSheet.Proofs.Printing

/-!
# Printed neighbours

Printing puts an empty comment between two components that would otherwise be read as
one.  Here it is done for lexemes: `Stretch.written` prints a list of lexemes with the
comments between them, and the question is whether every lexeme then ends before the text
behind it.

It does, but for the neighbours that `Lexeme.joins` lists, for which a comment is missing:
a number before a percent sign, two hyphens, a slash before `*=`, and so on.  The main
result is `Stretch.chained_written`.
-/

namespace NestedSheet

open Component

namespace Lexeme

/-! ## Printing lexemes -/

/-- What matters about a lexeme to the one before it. -/
def edge : Lexeme → Edge
  | .leaf l => Component.edge (.leaf {} l)
  | .function _ => .function
  | .opening .round => .parenthesis
  | _ => .other

/-- What matters about a lexeme to the one behind it, for which only leaves matter. -/
def edge? : Lexeme → Option Edge
  | .leaf l => some (edge (.leaf l))
  | _ => none

/-- The text of a lexeme. -/
def print : Lexeme → Text
  | .leaf l => printLeaf l
  | .comment text => '/' :: '*' :: text ++ ['*', '/']
  | .function name => printIdent name ++ ['(']
  | .opening bracket => [bracket.opening]
  | .closing bracket => [bracket.closing]

/-- Is the lexeme neither a comment nor a fault? -/
def isClean : Lexeme → Bool
  | .leaf l => l.fault?.isNone
  | .comment _ => false
  | _ => true

/-- Is the lexeme printed as a text that is read back as itself? -/
def isFaithful : Lexeme → Bool
  | .leaf l => l.isFaithful
  | _ => true

end Lexeme

namespace Stretch

/-- The stretches of lexemes as they are printed behind a lexeme with the edge given, if
they are behind any. -/
def written (previous : Option Edge) : List Lexeme → List Stretch
  | [] => []
  | a :: rest =>
    (if previous.any (·.clash a.edge) then [⟨"/**/".toList, .comment []⟩] else [])
      ++ ⟨a.print, a⟩ :: written a.edge? rest

end Stretch

namespace Lexeme

/-! ## The first characters of lexemes -/

/-- Does the lexeme start with a name or with a range? -/
def startsName (a : Lexeme) : Bool :=
  a.edge.startsIdentLike || a.edge == .unicodeRange

/-- How the text of a lexeme starts. -/
inductive Front : Lexeme → Char → Prop
  | name {a : Lexeme} {c : Char} (ha : a.startsName = true)
    (hc : isNameStart c = true ∨ c = '\\' ∨ c = '-') : Front a c
  | number {a : Lexeme} {c : Char} (ha : a.edge.startsNumber = true)
    (hc : c.isDigit = true ∨ c = '-' ∨ c = '+' ∨ c = '.') : Front a c
  | literal {c : Char} {cs : Text} (h : IsLiteralText (c :: cs)) : Front (literal (c :: cs)) c
  | space {t : Text} {c : Char} (hc : isSpace c = true) : Front (.leaf (.whitespace t)) c
  | round : Front (.opening .round) '('
  | other {a : Lexeme} {c : Char} (hc : c ∈ ['@', '#', '"', '[', '{', ')', ']', '}']) : Front a c

theorem front_of_startsIdent {a : Lexeme} (ha : a.startsName = true) {t : Text}
    (h : startsIdent (t ++ [';']) = true) (hne : t ≠ []) : ∃ c cs, t = c :: cs ∧ Front a c := by
  obtain ⟨c, cs, rfl⟩ := List.exists_cons_of_ne_nil hne
  exact ⟨c, cs, rfl, .name ha (head_of_startsIdent h)⟩

theorem front_number {a : Lexeme} (ha : a.edge.startsNumber = true) {digits : Text}
    (h : IsNumber digits) (t : Text) : ∃ c cs, digits ++ t = c :: cs ∧ Front a c := by
  obtain ⟨c, cs, rfl, hc⟩ := h.numeral.exists_head
  exact ⟨c, cs ++ t, rfl, .number ha hc⟩

theorem exists_front_leaf {l : Leaf} (h : l.WellFormed) (hfault : l.fault? = none) :
    ∃ c cs, printLeaf l = c :: cs ∧ Front (.leaf l) c := by
  cases l with
  | whitespace t =>
    obtain ⟨c, cs, rfl⟩ := List.exists_cons_of_ne_nil h.1
    exact ⟨c, cs, rfl, .space (h.2 c List.mem_cons_self)⟩
  | ident name =>
    exact front_of_startsIdent rfl (readName_printIdent h.1 rfl).2 (Stretch.printIdent_ne_nil h.1)
  | atKeyword name => exact ⟨'@', _, rfl, .other (by simp)⟩
  | hash name isIdentifier => exact ⟨'#', _, rfl, .other (by simp)⟩
  | string value closed => exact ⟨'"', _, rfl, .other (by simp)⟩
  | url value closed => exact ⟨'u', _, rfl, .name rfl (Or.inl rfl)⟩
  | number digits =>
    obtain ⟨c, cs, heq, hfront⟩ := @front_number (.leaf (.number digits)) rfl digits h []
    exact ⟨c, cs, (List.append_nil digits).symm.trans heq, hfront⟩
  | percentage digits => exact front_number rfl h ['%']
  | dimension digits unit => exact front_number rfl h.1 (printUnit unit)
  | unicodeRange first last =>
    obtain ⟨cs, heq⟩ : ∃ cs, printRange first last = 'U' :: cs := by
      unfold printRange
      split <;> exact ⟨_, rfl⟩
    exact ⟨'U', cs, heq, .name rfl (Or.inl rfl)⟩
  | literal t =>
    cases t with
    | nil => cases h
    | cons c cs => exact ⟨c, cs, rfl, .literal h⟩
  | badString => cases hfault
  | badUrl => cases hfault
  | unmatched bracket => cases hfault

/-- Every lexeme has a first character. -/
theorem exists_front {a : Lexeme} (h : a.WellFormed) (hclean : a.isClean = true) :
    ∃ c cs, a.print = c :: cs ∧ Front a c := by
  cases a with
  | leaf l => exact exists_front_leaf h (Option.isNone_iff_eq_none.1 hclean)
  | comment text => cases hclean
  | function name =>
    obtain ⟨c, cs, heq, hfront⟩ := @front_of_startsIdent (.function name) rfl (printIdent name)
      (readName_printIdent h.1 rfl).2 (Stretch.printIdent_ne_nil h.1)
    exact ⟨c, cs ++ ['('], by rw [print, heq, List.cons_append], hfront⟩
  | opening bracket =>
    cases bracket with
    | curly => exact ⟨'{', [], rfl, .other (by simp)⟩
    | square => exact ⟨'[', [], rfl, .other (by simp)⟩
    | round => exact ⟨'(', [], rfl, .round⟩
  | closing bracket =>
    cases bracket with
    | curly => exact ⟨'}', [], rfl, .other (by simp)⟩
    | square => exact ⟨']', [], rfl, .other (by simp)⟩
    | round => exact ⟨')', [], rfl, .other (by simp)⟩

/-! ## What stands behind a lexeme -/

/-- What can stand behind a lexeme with the edge given: nothing, a comment if it clashes
with the next one, or the next one, which ends before the text behind it. -/
inductive Ahead (e : Edge) : List Lexeme → Text → Prop
  | nothing : Ahead e [] []
  | comment {b : Lexeme} {more : List Lexeme} {u : Text} (hclash : e.clash b.edge = true) :
    Ahead e (b :: more) ('/' :: '*' :: u)
  | lexeme {b : Lexeme} {more : List Lexeme} {c : Char} {cs text : Text} (hwell : b.WellFormed)
    (hprint : b.print = c :: cs) (hfront : Front b c) (hclash : e.clash b.edge = false)
    (hstops : stops (c :: cs) b text = true) : Ahead e (b :: more) (c :: (cs ++ text))

theorem ahead_written {e : Edge} {rest : List Lexeme}
    (hwell : ∀ b ∈ rest, b.WellFormed) (hclean : ∀ b ∈ rest, b.isClean = true)
    (hchained : Stretch.chained (Stretch.written (some e) rest) = true) :
    Ahead e rest (Stretch.textOf (Stretch.written (some e) rest)) := by
  cases rest with
  | nil => exact .nothing
  | cons b more =>
    rw [Stretch.written, Option.any_some] at hchained ⊢
    split
    · next hclash => exact .comment hclash
    · next hclash =>
      rw [if_neg hclash, List.nil_append, Stretch.chained, Bool.and_eq_true] at hchained
      have hb := hwell b List.mem_cons_self
      obtain ⟨c, cs, hprint, hfront⟩ := exists_front hb (hclean b List.mem_cons_self)
      have hstops := hchained.1
      rw [List.nil_append, Stretch.textOf_cons]
      simp only [hprint] at hstops ⊢
      exact .lexeme hb hprint hfront (Bool.eq_false_iff.2 hclash) hstops

/-- Is the next lexeme this literal? -/
def comes (t : Text) (rest : List Lexeme) : Bool :=
  rest.head? == some (literal t)

section Ahead

variable {rest : List Lexeme} {text : Text} {e : Edge}

theorem isLiteralText_char {c : Char} (h : IsLiteralText [c]) : isLiteralChar c = true := by
  cases h with
  | char hc => exact hc

/-- The first character of a literal starts neither a name nor a number. -/
theorem head_literal {c : Char} {cs : Text} (h : IsLiteralText (c :: cs)) :
    isNameStart c = false ∧ c.isDigit = false ∧ isSpace c = false := by
  cases h with
  | char hc =>
    simp only [isLiteralChar, Bool.and_eq_true, Bool.not_eq_true'] at hc
    exact ⟨hc.1.1.1.1.1.2, hc.1.1.1.1.2, hc.1.1.1.1.1.1⟩
  | arrow => decide
  | markup => decide
  | bars => decide
  | equals hc =>
    simp only [joinsEquals, Bool.or_eq_true, beq_iff_eq] at hc
    rcases hc with (((rfl | rfl) | rfl) | rfl) | rfl <;> decide

/-- A character that is neither of a name nor of a number comes from a literal. -/
theorem exists_literal {b : Lexeme} {c : Char} (h : Front b c)
    (hc : isNameStart c = false ∧ c.isDigit = false ∧ isSpace c = false
      ∧ c ∉ ['\\', '-', '+', '.', '(', '@', '#', '"', '[', '{', ')', ']', '}']) :
    ∃ cs, b = literal (c :: cs) ∧ IsLiteralText (c :: cs) := by
  obtain ⟨hstart, hdigit, hspace, hmem⟩ := hc
  cases h with
  | name _ hc =>
    rcases hc with hc | rfl | rfl
    · rw [hstart] at hc
      cases hc
    · simp at hmem
    · simp at hmem
  | number _ hc =>
    rcases hc with hc | rfl | rfl | rfl
    · rw [hdigit] at hc
      cases hc
    · simp at hmem
    · simp at hmem
    · simp at hmem
  | literal h => exact ⟨_, rfl, h⟩
  | space hc =>
    rw [hspace] at hc
    cases hc
  | round => simp at hmem
  | other hc =>
    refine absurd ?_ hmem
    iterate 5 apply List.mem_cons_of_mem
    exact hc

/-- What starts neither with a name nor with a number. -/
structure Plain (rest : List Lexeme) (text : Text) : Prop where
  notName : text.head?.any isNameStart = false
  notDigit : text.head?.any Char.isDigit = false
  notEscape : startsEscape text = false
  hyphen : text.head? = some '-' →
    (comes ['-'] rest = true ∧ startsIdent text = false ∧ (text.drop 1).head?.any Char.isDigit = false)
      ∨ (comes ['-', '-', '>'] rest = true ∧ (text.drop 1).head? = some '-')
  point : text.head? = some '.' → (text.drop 1).head?.any Char.isDigit = false

theorem plain_of_head {c : Char} (rest : List Lexeme) (u : Text) (hname : isNameStart c = false)
    (hdigit : c.isDigit = false) (hc : c ≠ '\\' ∧ c ≠ '-' ∧ c ≠ '.') : Plain rest (c :: u) where
  notName := hname
  notDigit := hdigit
  notEscape := startsEscape_eq_false u hc.1
  hyphen := fun hhead => absurd (Option.some.inj hhead) hc.2.1
  point := fun hhead => absurd (Option.some.inj hhead) hc.2.2

/-- A character that is a literal by itself starts neither a name nor a number, where it ends. -/
theorem plain_char {c : Char} {u : Text} (hc : isLiteralChar c = true) (hends : endsMark c u = true)
    (more : List Lexeme) : Plain (literal [c] :: more) (c :: u) := by
  obtain ⟨hname, hdigit, -⟩ := head_literal (.char hc)
  by_cases hsign : c ≠ '\\' ∧ c ≠ '-' ∧ c ≠ '.'
  · exact plain_of_head _ _ hname hdigit hsign
  · rw [not_and_or, not_and_or, not_not, not_not, not_not] at hsign
    rcases hsign with rfl | rfl | rfl
    · -- a backslash stands for itself before a newline
      have hhead : u.head? = some '\n' := by simpa [endsMark] using hends
      obtain ⟨v, rfl⟩ := List.head?_eq_some_iff.1 hhead
      exact ⟨rfl, rfl, rfl, by simp, by simp⟩
    · simp only [endsMark, Bool.and_eq_true, Bool.not_eq_true', show '-' ≠ '@' by decide,
        show '-' ≠ '#' by decide, show '-' ≠ '\\' by decide, if_false, if_true,
        Option.isNone_iff_eq_none] at hends
      obtain ⟨hident, hnumber⟩ := hends
      have hhyphen := not_digit_of_readNumber? (Or.inl rfl) hnumber
      exact ⟨rfl, rfl, startsEscape_eq_false _ (by decide),
        fun _ => Or.inl ⟨by simp [comes], hident, hhyphen⟩, by simp⟩
    · have hnumber : readNumber? ('.' :: u) = none := by simpa [endsMark] using hends
      exact ⟨rfl, rfl, startsEscape_eq_false _ (by decide), by simp,
        fun _ => not_digit_of_readNumber? (Or.inr rfl) hnumber⟩

/-- A literal that ends before the text behind it starts neither a name nor a number. -/
theorem plain_literal {c : Char} {cs u : Text} (h : IsLiteralText (c :: cs))
    (hstops : stops (c :: cs) (literal (c :: cs)) u = true) (more : List Lexeme) :
    Plain (literal (c :: cs) :: more) (c :: (cs ++ u)) := by
  cases h with
  | char hc => exact plain_char hc hstops more
  | arrow => exact ⟨rfl, rfl, rfl, fun _ => Or.inr ⟨by simp [comes], rfl⟩, by simp⟩
  | markup => exact plain_of_head _ _ rfl rfl (by decide)
  | bars => exact plain_of_head _ _ rfl rfl (by decide)
  | equals hjoins =>
    simp only [joinsEquals, Bool.or_eq_true, beq_iff_eq] at hjoins
    rcases hjoins with (((rfl | rfl) | rfl) | rfl) | rfl <;> exact plain_of_head _ _ rfl rfl (by decide)

/-- A lexeme that is neither a name nor a number does not start like one. -/
theorem plain_front {b : Lexeme} {c : Char} {cs u : Text} (hfront : Front b c)
    (hprint : b.print = c :: cs) (hword : (b.startsName || b.edge.startsNumber) = false)
    (hstops : stops (c :: cs) b u = true) (more : List Lexeme) :
    Plain (b :: more) (c :: (cs ++ u)) := by
  simp only [Bool.or_eq_false_iff] at hword
  cases hfront with
  | name hb _ =>
    rw [hword.1] at hb
    cases hb
  | number hb _ =>
    rw [hword.2] at hb
    cases hb
  | @literal c ds ht =>
    obtain rfl : ds = cs := (List.cons.inj hprint).2
    exact plain_literal ht hstops more
  | space hc =>
    simp only [isSpace, Bool.or_eq_true, beq_iff_eq] at hc
    rcases hc with (rfl | rfl) | rfl <;> exact plain_of_head _ _ rfl rfl (by decide)
  | round => exact plain_of_head _ _ rfl rfl (by decide)
  | other hc =>
    simp only [List.mem_cons, List.not_mem_nil, or_false] at hc
    rcases hc with rfl | rfl | rfl | rfl | rfl | rfl | rfl | rfl <;>
      exact plain_of_head _ _ rfl rfl (by decide)

/-- What stands behind an edge that clashes with all names and numbers. -/
theorem Ahead.plain (h : Ahead e rest text)
    (hwords : ∀ b : Lexeme, (b.startsName || b.edge.startsNumber) = true → e.clash b.edge = true) :
    Plain rest text := by
  cases h with
  | nothing => exact ⟨rfl, rfl, rfl, nofun, nofun⟩
  | comment => exact plain_of_head _ _ rfl rfl (by decide)
  | @lexeme b more c cs u hwell hprint hfront hclash hstops =>
    refine plain_front hfront hprint ?_ hstops more
    rw [Bool.eq_false_iff]
    intro hword
    rw [hwords b hword] at hclash
    cases hclash

/-- A literal that comes right behind an edge does not clash with it. -/
theorem Ahead.clash_eq_false (h : Ahead e rest text) {t : Text} (hcomes : comes t rest = true)
    (hhead : text.head? ≠ some '/') : e.clash (.literal t) = false := by
  cases h with
  | nothing => cases hcomes
  | comment => exact absurd rfl hhead
  | lexeme _ _ _ hclash _ =>
    rw [comes, List.head?_cons, beq_iff_eq, Option.some.injEq] at hcomes
    rw [hcomes] at hclash
    exact hclash

/-- An edge that clashes with all names and numbers. -/
def partsWords (e : Edge) : Bool :=
  e.endsName || e.isMark '#' || e.isMark '-' || e == .number

theorem clash_of_partsWords (he : partsWords e = true) (b : Lexeme)
    (hb : (b.startsName || b.edge.startsNumber) = true) : e.clash b.edge = true := by
  have hword : (b.edge.startsIdentLike || b.edge.startsNumber || b.edge == .unicodeRange) = true := by
    simp only [startsName, Bool.or_eq_true] at hb ⊢
    rcases hb with (hb | hb) | hb
    · exact Or.inl (Or.inl hb)
    · exact Or.inr hb
    · exact Or.inl (Or.inr hb)
  unfold partsWords at he
  simp only [Edge.clash, he, hword, Bool.and_self, Bool.true_or]

theorem Plain.continuesName (h : Plain rest text) (hhyphen : text.head? ≠ some '-') :
    continuesName text = false := by
  cases text with
  | nil => rfl
  | cons c cs =>
    have hc : c ≠ '-' := by simpa using hhyphen
    have hname : isNameStart c = false := h.notName
    have hdigit : c.isDigit = false := h.notDigit
    simp [Component.continuesName, h.notEscape, isNameChar, hname, hdigit, hc]

/-- No identifier starts where a plain text does, unless it is the end of a markup
comment. -/
theorem Plain.startsIdent (h : Plain rest text) (harrow : comes ['-', '-', '>'] rest = false) :
    startsIdent text = false := by
  cases text with
  | nil => rfl
  | cons c cs =>
    have hname : isNameStart c = false := h.notName
    by_cases hc : c = '-'
    · rcases h.hyphen (congrArg some hc) with ⟨-, hident, -⟩ | ⟨hbad, -⟩
      · exact hident
      · rw [harrow] at hbad
        cases hbad
    · simp [Component.startsIdent, hname, h.notEscape, hc]

/-- No number starts with a sign or a point before a text that brings no digits. -/
theorem readNumber?_sign {c : Char} (hc : c = '-' ∨ c = '+' ∨ c = '.')
    (hdigit : text.head?.any Char.isDigit = false)
    (hpoint : text.head? = some '.' → (text.drop 1).head?.any Char.isDigit = false) :
    readNumber? (c :: text) = none := by
  have htake : ∀ {t : Text}, t.head?.any Char.isDigit = false → t.takeWhile Char.isDigit = [] := by
    intro t ht
    exact @takeWhile_run _ [] t nofun ht
  have hdrop : ∀ {t : Text}, t.head?.any Char.isDigit = false → t.dropWhile Char.isDigit = t := by
    intro t ht
    exact @dropWhile_run _ [] t nofun ht
  have hmantissa : readMantissa? text = none := by
    simp only [readMantissa?, htake hdigit, hdrop hdigit]
    rw [if_neg, if_neg (by simp)]
    rintro ⟨hhead, hfraction⟩
    exact hfraction (htake (hpoint hhead))
  rcases hc with rfl | rfl | rfl
  · simp [readNumber?, readSign, hmantissa]
  · simp [readNumber?, readSign, hmantissa]
  · have hnone : readMantissa? ('.' :: text) = none := by
      simp [readMantissa?, show Char.isDigit '.' = false from rfl, htake hdigit]
    simp [readNumber?, readSign, hnone]

/-- What stands behind a name does not go on with it. -/
theorem Ahead.endsName (h : Ahead e rest text) (he : e.endsName = true) :
    Component.continuesName text = false := by
  have hplain := h.plain (clash_of_partsWords (by simp [partsWords, he]))
  refine hplain.continuesName fun hhyphen => ?_
  have hclash : ∀ {t : Text}, t = ['-'] ∨ t = ['-', '-', '>'] → comes t rest = true → False := by
    intro t ht hcomes
    have hnot := h.clash_eq_false hcomes (by rw [hhyphen]; decide)
    rcases ht with rfl | rfl <;> simp [Edge.clash, he, Edge.isMark, Edge.isLiteral] at hnot
  rcases hplain.hyphen hhyphen with ⟨hcomes, -⟩ | ⟨hcomes, -⟩
  · exact hclash (Or.inl rfl) hcomes
  · exact hclash (Or.inr rfl) hcomes

/-- A character that nothing else starts with comes from a literal. -/
theorem Ahead.comes_of_head (h : Ahead e rest text) {c : Char} (hhead : text.head? = some c)
    (hc : isNameStart c = false ∧ c.isDigit = false ∧ isSpace c = false
      ∧ c ∉ ['\\', '-', '+', '.', '(', '@', '#', '"', '[', '{', ')', ']', '}'])
    (hslash : c ≠ '/') :
    ∃ cs, IsLiteralText (c :: cs) ∧ comes (c :: cs) rest = true ∧ e.clash (.literal (c :: cs)) = false := by
  have hclash := fun t hcomes => @Ahead.clash_eq_false _ _ _ h t hcomes (by simpa [hhead] using hslash)
  cases h with
  | nothing => cases hhead
  | comment => exact absurd (Option.some.inj hhead).symm hslash
  | lexeme _ _ hfront _ _ =>
    obtain rfl := Option.some.inj hhead
    obtain ⟨cs, rfl, ht⟩ := exists_literal hfront hc
    exact ⟨cs, ht, by simp [comes], hclash _ (by simp [comes])⟩

/-- A literal that no other one starts like. -/
theorem eq_nil_of_literal {c : Char} {cs : Text} (h : IsLiteralText (c :: cs))
    (hc : c ≠ '-' ∧ c ≠ '<' ∧ c ≠ '|' ∧ joinsEquals c = false) : cs = [] := by
  cases h with
  | char => rfl
  | arrow => exact absurd rfl hc.1
  | markup => exact absurd rfl hc.2.1
  | bars => exact absurd rfl hc.2.2.1
  | equals hjoins =>
    rw [hc.2.2.2] at hjoins
    cases hjoins

theorem Ahead.head_ne_bracket (h : Ahead .ident rest text) : text.head? ≠ some '(' := by
  intro hhead
  cases h with
  | nothing => cases hhead
  | comment => cases hhead
  | lexeme _ _ hfront hclash _ =>
    obtain rfl := Option.some.inj hhead
    cases hfront with
    | name _ hc => rcases hc with hc | hc | hc <;> cases hc
    | number _ hc => rcases hc with hc | hc | hc | hc <;> cases hc
    | literal ht =>
      obtain rfl := eq_nil_of_literal ht (by decide)
      cases isLiteralText_char ht
    | space hc => cases hc
    | round => cases hclash
    | other hc => simp at hc

/-- What stands behind whitespace is no whitespace, if none comes. -/
theorem Ahead.not_space {t : Text} (h : Ahead (.whitespace t) rest text)
    (hspace : ∀ u, rest.head? ≠ some (.leaf (.whitespace u))) : text.head?.any isSpace = false := by
  cases h with
  | nothing => rfl
  | comment => rfl
  | @lexeme b more c cs u _ _ hfront _ _ =>
    show isSpace c = false
    rw [Bool.eq_false_iff]
    intro hc
    have hcases := hc
    simp only [isSpace, Bool.or_eq_true, beq_iff_eq] at hcases
    cases hfront with
    | name _ hname => rcases hcases with (rfl | rfl) | rfl <;> rcases hname with h | h | h <;> cases h
    | number _ hnumber =>
      rcases hcases with (rfl | rfl) | rfl <;> rcases hnumber with h | h | h | h <;> cases h
    | literal ht =>
      rw [(head_literal ht).2.2] at hc
      cases hc
    | space => exact hspace _ rfl
    | round => cases hc
    | other hother => rcases hcases with (rfl | rfl) | rfl <;> simp at hother

/-- A plain text does not start with a hexadecimal digit. -/
theorem Plain.not_hex (h : Plain rest text) : text.head?.any isHex = false := by
  cases text with
  | nil => rfl
  | cons c cs =>
    have hname : isNameStart c = false := h.notName
    have hdigit : c.isDigit = false := h.notDigit
    rw [List.head?_cons, Option.any_some, Bool.eq_false_iff]
    intro hc
    rcases isNameStart_or_isDigit_of_isHex hc with hc | hc
    · rw [hc] at hname
      cases hname
    · rw [hc] at hdigit
      cases hdigit

/-- Nor is there one behind its hyphen, with which it would go on. -/
theorem Plain.not_hex_behind (h : Plain rest text) (hhyphen : text.head? = some '-') :
    (text.drop 1).head?.any isHex = false := by
  obtain ⟨cs, rfl⟩ := List.head?_eq_some_iff.1 hhyphen
  rw [List.drop_one, List.tail_cons]
  rcases h.hyphen rfl with ⟨-, hident, hdigit⟩ | ⟨-, hsecond⟩
  · rw [List.drop_one, List.tail_cons] at hdigit
    cases cs with
    | nil => rfl
    | cons d ds =>
      rw [List.head?_cons, Option.any_some] at hdigit ⊢
      rw [Bool.eq_false_iff]
      intro hd
      rcases isNameStart_or_isDigit_of_isHex hd with hd | hd
      · simp [Component.startsIdent, hd] at hident
      · rw [hd] at hdigit
        cases hdigit
  · rw [List.drop_one, List.tail_cons] at hsecond
    rw [hsecond]
    rfl

/-- Of all names only a URL and another range do not clash with a range. -/
theorem head_behind_range {b : Lexeme} {c : Char} {cs : Text} (hname : b.startsName = true)
    (hclash : Edge.unicodeRange.clash b.edge = false) (hprint : b.print = c :: cs) :
    c = 'u' ∨ c = 'U' := by
  cases b with
  | leaf l =>
    cases l with
    | url value closed => exact Or.inl (List.cons.inj hprint).1.symm
    | unicodeRange first last =>
      have hrange : printRange first last = c :: cs := hprint
      unfold printRange at hrange
      split at hrange <;> exact Or.inr (List.cons.inj hrange).1.symm
    | ident name => cases hclash
    | _ => cases hname
  | function name => cases hclash
  | opening bracket => cases bracket <;> cases hname
  | _ => cases hname

/-- What stands behind a range does not go on with it. -/
theorem Ahead.endsRange (h : Ahead .unicodeRange rest text) : Component.endsRange text = true := by
  cases h with
  | nothing => rfl
  | comment => rfl
  | @lexeme b more c cs u _ hprint hfront hclash hstops =>
    by_cases hname : b.startsName = true
    · rcases head_behind_range hname hclash hprint with rfl | rfl <;> rfl
    · have hnumber : b.edge.startsNumber = false := by
        rw [Bool.eq_false_iff]
        intro hb
        simp [Edge.clash, hb] at hclash
      have hplain := plain_front hfront hprint (by simp [hname, hnumber]) hstops more
      have hmark : c ≠ '?' := by
        rintro rfl
        obtain ⟨ds, rfl, ht⟩ := exists_literal hfront (by decide)
        obtain rfl := eq_nil_of_literal ht (by decide)
        cases hclash
      have hhyphen : c = '-' → (cs ++ u).head?.any isHex = false :=
        fun hc => hplain.not_hex_behind (congrArg some hc)
      have hhex : isHex c = false := hplain.not_hex
      simpa [Component.endsRange, hhex, hmark, ← imp_iff_not_or] using hhyphen

end Ahead

/-! ## Neighbours without a comment -/

/-- Is a lexeme read together with what comes behind it, although no comment is put
between them? -/
def joins (a : Lexeme) (rest : List Lexeme) : Bool :=
  match a with
  | .leaf (.ident name) =>
    -- the end of a markup comment, or a range
    (name == ['-', '-'] && comes ['>'] rest)
      || ((name == ['u'] || name == ['U'])
        && startsRange (Stretch.textOf (Stretch.written a.edge? rest)))
  | .leaf (.number _) => comes ['%'] rest || comes ['-', '-', '>'] rest
  | .leaf (.literal ['@']) => comes ['-', '-', '>'] rest
  | .leaf (.literal ['#']) => comes ['-'] rest || comes ['-', '-', '>'] rest
  | .leaf (.literal ['-']) => comes ['-'] rest || comes ['-', '-', '>'] rest
  -- a backslash stands for itself before a newline only
  | .leaf (.literal ['\\']) => !rest.head?.any (·.edge.startsNewline)
  | .leaf (.literal ['/']) => comes ['*', '='] rest
  | .leaf (.literal ['<']) =>
    Text.startsWith (Stretch.textOf (Stretch.written a.edge? rest)) ['!', '-', '-']
  | .leaf (.literal ['|']) => comes ['|', '|'] rest || comes ['|', '='] rest
  | _ => false

theorem swallows_eq_false {t name : Text} (h : readName (t ++ [' ']) = (name, [' '])) :
    swallows t = false := by
  rw [swallows, h]
  rfl

theorem endsName_print {t name text : Text} (h : readName (t ++ [' ']) = (name, [' ']))
    (htext : continuesName text = false) : endsName t text = true := by
  simp [endsName, htext, swallows_eq_false h]

section Stops

variable {rest : List Lexeme} {text : Text}

theorem stops_ident {name : Text} (hne : name ≠ []) (h : Ahead .ident rest text)
    (hmarkup : name = ['-', '-'] → comes ['>'] rest = false)
    (hrange : name = ['u'] ∨ name = ['U'] → startsRange text = false) :
    stops (printIdent name) (.leaf (.ident name)) text = true := by
  have hread := fun t ht => (@readName_printIdent name t hne ht).1
  have hname : ∀ t, printIdent name = t → readName t = (t, []) → name = t := by
    intro t ht htread
    have hself := hread [] rfl
    rw [List.append_nil, ht, htread] at hself
    exact (Prod.mk.inj hself).1.symm
  simp only [stops, Bool.and_eq_true, bne_iff_ne, Bool.not_eq_true', Bool.and_eq_false_iff,
    Bool.or_eq_false_iff, beq_eq_false_iff_ne]
  refine ⟨⟨⟨endsName_print (hread [' '] rfl) (h.endsName rfl), h.head_ne_bracket⟩, ?_⟩, ?_⟩
  · refine or_iff_not_imp_left.2 fun hprint hhead => ?_
    obtain ⟨cs, ht, hcomes, -⟩ := h.comes_of_head hhead (by decide) (by decide)
    obtain rfl := eq_nil_of_literal ht (by decide)
    rw [hmarkup (hname _ (not_not.1 hprint) (by decide +kernel))] at hcomes
    cases hcomes
  · by_cases hprint : printIdent name = ['u'] ∨ printIdent name = ['U']
    · refine Or.inr (hrange (hprint.imp (fun hu => ?_) fun hu => ?_))
      · exact hname _ hu (by decide +kernel)
      · exact hname _ hu (by decide +kernel)
    · exact Or.inl (not_or.1 hprint)

theorem stops_number {digits : Text} (h : Ahead .number rest text)
    (hpercent : comes ['%'] rest = false) (harrow : comes ['-', '-', '>'] rest = false) :
    stops digits (.leaf (.number digits)) text = true := by
  have hplain := h.plain (clash_of_partsWords rfl)
  simp only [stops, Bool.and_eq_true, Bool.not_eq_true', bne_iff_ne]
  refine ⟨⟨?_, hplain.startsIdent harrow⟩, fun hhead => ?_⟩
  · have hexponent : (readExponent text).1 = [] := by
      cases text with
      | nil => rfl
      | cons c cs =>
        have hname : isNameStart c = false := hplain.notName
        refine readExponent_letter ⟨?_, ?_⟩ cs <;>
        · rintro rfl
          cases hname
    have hpoint : (text.head? == some '.' && (text.drop 1).head?.any Char.isDigit) = false := by
      rw [Bool.and_eq_false_iff, beq_eq_false_iff_ne]
      exact or_iff_not_imp_left.2 fun hhead => hplain.point (not_not.1 hhead)
    simp only [endsNumber, hplain.notDigit, hexponent, hpoint, Bool.not_false, Bool.or_true,
      List.isEmpty_nil, Bool.and_self]
  · obtain ⟨cs, ht, hcomes, -⟩ := h.comes_of_head hhead (by decide) (by decide)
    obtain rfl := eq_nil_of_literal ht (by decide)
    rw [hpercent] at hcomes
    cases hcomes

/-- A hyphen that no other one follows stands for itself. -/
theorem head_ne_hyphen (h : Plain rest text)
    (hcomes : (comes ['-'] rest || comes ['-', '-', '>'] rest) = false) : text.head? ≠ some '-' := by
  intro hhyphen
  rw [Bool.or_eq_false_iff] at hcomes
  rcases h.hyphen hhyphen with ⟨hbad, -⟩ | ⟨hbad, -⟩
  · rw [hcomes.1] at hbad
    cases hbad
  · rw [hcomes.2] at hbad
    cases hbad

theorem startsIdent_at (h : Ahead (.literal ['@']) rest text)
    (harrow : comes ['-', '-', '>'] rest = false) : startsIdent text = false := by
  cases h with
  | nothing => rfl
  | comment => rfl
  | @lexeme b more c cs u hwell hprint hfront hclash hstops =>
    have hname : b.startsName = false := by
      rw [Bool.eq_false_iff]
      intro hb
      simp only [startsName, Bool.or_eq_true] at hb
      rcases hb with hb | hb <;> simp [Edge.clash, Edge.isMark, Edge.endsName, hb] at hclash
    by_cases hnumber : b.edge.startsNumber = true
    · -- a number is no identifier, whatever its sign
      have hdigits : ∃ digits t, IsNumber digits ∧ b.print = digits ++ t := by
        cases b with
        | leaf l =>
          cases l with
          | number digits => exact ⟨digits, [], hwell, (List.append_nil digits).symm⟩
          | percentage digits => exact ⟨digits, ['%'], hwell, rfl⟩
          | dimension digits unit => exact ⟨digits, printUnit unit, hwell.1, rfl⟩
          | _ => cases hnumber
        | opening bracket => cases bracket <;> cases hnumber
        | _ => cases hnumber
      obtain ⟨digits, t, hnumber, hsplit⟩ := hdigits
      have hident := (hnumber.numeral.not_startsIdent (t ++ u)).1
      rwa [← List.append_assoc, ← hsplit, hprint] at hident
    · exact (plain_front hfront hprint (by simp [hname, hnumber]) hstops more).startsIdent harrow

/-- A name starts with neither a digit nor a point. -/
theorem head_name {b : Lexeme} {d : Char} (h : Front b d) (hname : b.startsName = true)
    (hnumber : b.edge.startsNumber = false) : d.isDigit = false ∧ d ≠ '.' := by
  cases h with
  | name _ hd => exact not_number_of_head hd
  | number hb _ =>
    rw [hnumber] at hb
    cases hb
  | literal _ => cases hname
  | space _ => cases hname
  | round => cases hname
  | other hd =>
    simp only [List.mem_cons, List.not_mem_nil, or_false] at hd
    rcases hd with rfl | rfl | rfl | rfl | rfl | rfl | rfl | rfl <;> decide

/-- What stands behind a plus or a point brings no digits. -/
theorem not_digit_sign {c : Char} (hc : c = '+' ∨ c = '.') (h : Ahead (.literal [c]) rest text) :
    text.head?.any Char.isDigit = false
      ∧ (text.head? = some '.' → (text.drop 1).head?.any Char.isDigit = false) := by
  cases h with
  | nothing => exact ⟨rfl, nofun⟩
  | comment => exact ⟨rfl, nofun⟩
  | @lexeme b more d cs u _ hprint hfront hclash hstops =>
    have hnumber : b.edge.startsNumber = false := by
      rw [Bool.eq_false_iff]
      intro hb
      rcases hc with rfl | rfl <;> simp [Edge.clash, Edge.isMark, hb] at hclash
    by_cases hname : b.startsName = true
    · obtain ⟨hdigit, hpoint⟩ := head_name hfront hname hnumber
      exact ⟨hdigit, fun hhead => absurd (Option.some.inj hhead) hpoint⟩
    · have hplain := plain_front hfront hprint (by simp [hname, hnumber]) hstops more
      exact ⟨hplain.notDigit, hplain.point⟩

/-- An equals sign does not come right behind a mark that it belongs together with. -/
theorem head_ne_equals {c : Char} (hc : joinsEquals c = true) (h : Ahead (.literal [c]) rest text) :
    text.head? ≠ some '=' := by
  intro hhead
  obtain ⟨cs, ht, -, hclash⟩ := h.comes_of_head hhead (by decide) (by decide)
  obtain rfl := eq_nil_of_literal ht (by decide)
  simp only [joinsEquals, Bool.or_eq_true, beq_iff_eq] at hc
  rcases hc with (((rfl | rfl) | rfl) | rfl) | rfl <;> cases hclash

theorem endsMark_bar (h : Ahead (.literal ['|']) rest text)
    (hjoins : (comes ['|', '|'] rest || comes ['|', '='] rest) = false) :
    text.head? ≠ some '|' := by
  intro hhead
  rw [Bool.or_eq_false_iff] at hjoins
  obtain ⟨cs, ht, hcomes, hclash⟩ := h.comes_of_head hhead (by decide) (by decide)
  cases ht with
  | char => cases hclash
  | bars =>
    rw [hjoins.1] at hcomes
    cases hcomes
  | equals =>
    rw [hjoins.2] at hcomes
    cases hcomes

theorem endsMark_slash (h : Ahead (.literal ['/']) rest text) (hjoins : comes ['*', '='] rest = false) :
    text.head? ≠ some '*' := by
  intro hhead
  obtain ⟨cs, ht, hcomes, hclash⟩ := h.comes_of_head hhead (by decide) (by decide)
  cases ht with
  | char => cases hclash
  | equals =>
    rw [hjoins] at hcomes
    cases hcomes

theorem endsMark_backslash (h : Ahead (.literal ['\\']) rest text)
    (hjoins : rest.head?.any (·.edge.startsNewline) = true) : text.head? = some '\n' := by
  cases h with
  | nothing => cases hjoins
  | @comment b _ _ hclash =>
    have hnewline : b.edge.startsNewline = true := hjoins
    unfold Edge.startsNewline at hnewline
    split at hnewline
    · next hedge => rw [hedge] at hclash; cases hclash
    · cases hnewline
  | @lexeme b _ c cs u _ hprint _ _ _ =>
    have hnewline : b.edge.startsNewline = true := hjoins
    unfold Edge.startsNewline at hnewline
    split at hnewline
    · next t hedge =>
      have hb : b = .leaf (.whitespace ('\n' :: t)) := by
        cases b with
        | leaf l =>
          cases l with
          | whitespace u =>
            cases hedge
            rfl
          | _ => cases hedge
        | opening bracket => cases bracket <;> cases hedge
        | _ => cases hedge
      rw [hb] at hprint
      exact congrArg some (List.cons.inj hprint).1.symm
    · cases hnewline

/-- A hyphen starts no identifier with a plain text that brings no further one. -/
theorem Plain.startsIdent_hyphen (h : Plain rest text) (hhyphen : text.head? ≠ some '-') :
    Component.startsIdent ('-' :: text) = false := by
  have hnext : text.head?.any (fun d => isNameStart d || d == '-') = false := by
    cases text with
    | nil => rfl
    | cons c cs =>
      have hname : isNameStart c = false := h.notName
      have hc : c ≠ '-' := by simpa using hhyphen
      simp [hname, hc]
  have hescape := startsEscape_eq_false text (show '-' ≠ '\\' by decide)
  simp [Component.startsIdent, hnext, h.notEscape, hescape, show isNameStart '-' = false from rfl]

/-- A mark ends before what comes behind it. -/
theorem endsMark_ahead {c : Char} (htext : text = Stretch.textOf (Stretch.written (some (.literal [c])) rest))
    (h : Ahead (.literal [c]) rest text) (hjoins : joins (literal [c]) rest = false) :
    endsMark c text = true := by
  unfold endsMark
  split_ifs with hat hnumber hbackslash hhyphen hsign hslash hless hbar hequals
  · subst hat
    rw [startsIdent_at h hjoins]
    rfl
  · subst hnumber
    have hplain := h.plain (clash_of_partsWords rfl)
    rw [hplain.continuesName (head_ne_hyphen hplain hjoins)]
    rfl
  · subst hbackslash
    have hcomes : rest.head?.any (·.edge.startsNewline) = true := by simpa [joins, literal] using hjoins
    rw [endsMark_backslash h hcomes]
    rfl
  · subst hhyphen
    have hplain := h.plain (clash_of_partsWords rfl)
    have hnumber := readNumber?_sign (Or.inl rfl) hplain.notDigit hplain.point
    rw [hplain.startsIdent_hyphen (head_ne_hyphen hplain hjoins), hnumber]
    rfl
  · obtain ⟨hdigit, hpoint⟩ := not_digit_sign hsign h
    rw [readNumber?_sign (Or.inr hsign) hdigit hpoint]
    rfl
  · subst hslash
    exact bne_iff_ne.2 (endsMark_slash h hjoins)
  · subst hless
    have hmarkup : Text.startsWith text ['!', '-', '-'] = false := by
      rw [htext]
      exact hjoins
    rw [hmarkup]
    rfl
  · subst hbar
    rw [Bool.and_eq_true, bne_iff_ne, bne_iff_ne]
    exact ⟨endsMark_bar h hjoins, head_ne_equals rfl h⟩
  · exact bne_iff_ne.2 (head_ne_equals hequals h)
  · rfl

end Stops

/-! ## Lists of lexemes -/

/-- Is the lexeme whitespace? -/
def isGap : Lexeme → Bool
  | .leaf (.whitespace _) => true
  | _ => false

/-- Is the lexeme a string, be it a broken one? -/
def isString : Lexeme → Bool
  | .leaf (.string _ _) => true
  | .leaf .badString => true
  | _ => false

/-- Is the first lexeme a string, whitespace apart? -/
def startsString (list : List Lexeme) : Bool :=
  (list.dropWhile isGap).head?.any isString

/-- Is the lexeme the start of a function that is called like a URL? -/
def isUrl : Lexeme → Bool
  | .function name => isNamed "url" name
  | _ => false

/-- Does a string come behind every function that would be read as a URL otherwise? -/
def quotesUrls : List Lexeme → Bool
  | [] => true
  | a :: rest => (!a.isUrl || startsString rest) && quotesUrls rest

/-- Is there something between any two runs of whitespace? -/
def areSpaced : List Lexeme → Bool
  | [] => true
  | a :: rest => !(a.isGap && rest.head?.any isGap) && areSpaced rest

/-- Is none of the lexemes read together with what comes behind it? -/
def areApart : List Lexeme → Bool
  | [] => true
  | a :: rest => !joins a rest && areApart rest

/-- A string is printed with a quote first, behind the whitespace before it. -/
theorem startsQuote_written : ∀ {list : List Lexeme} {previous : Option Edge},
    (∀ a ∈ list, a.WellFormed) → (∀ a ∈ list, a.isClean = true) → startsString list = true →
    (∀ b : Lexeme, previous.any (·.clash b.edge) = false) →
      startsQuote ((Stretch.textOf (Stretch.written previous list)).dropWhile isSpace) = true := by
  intro list
  induction list with
  | nil =>
    intro previous _ _ hstring
    cases hstring
  | cons a rest ih =>
    intro previous hwell hclean hstring hprevious
    obtain ⟨ha, hrest⟩ := List.forall_mem_cons.1 hwell
    obtain ⟨hcleana, hcleanrest⟩ := List.forall_mem_cons.1 hclean
    rw [Stretch.written, hprevious a, if_neg Bool.false_ne_true, List.nil_append, Stretch.textOf_cons]
    by_cases hgap : a.isGap = true
    · -- whitespace is passed, and nothing is put between it and what follows
      have hstring' : startsString rest = true := by
        simpa [startsString, hgap] using hstring
      unfold isGap at hgap
      split at hgap
      · next t =>
        have hspaces : ∀ c ∈ t, isSpace c = true := ha.2
        show startsQuote ((t ++ _).dropWhile isSpace) = true
        rw [List.dropWhile_append_of_pos hspaces]
        refine ih hrest hcleanrest hstring' fun b => ?_
        show (Edge.whitespace t).clash b.edge = false
        rfl
      · cases hgap
    · have hquote : a.isString = true := by
        simpa [startsString, hgap] using hstring
      unfold isString at hquote
      split at hquote
      · rfl
      · cases hcleana
      · cases hquote

/-- What is true of the lexemes of a text, of each of them and of their order. -/
structure AreOrderly (list : List Lexeme) : Prop where
  well : ∀ a ∈ list, a.WellFormed
  clean : ∀ a ∈ list, a.isClean = true
  spaced : areSpaced list = true
  quoted : quotesUrls list = true

theorem AreOrderly.tail {a : Lexeme} {rest : List Lexeme} (h : AreOrderly (a :: rest)) :
    AreOrderly rest where
  well := (List.forall_mem_cons.1 h.well).2
  clean := (List.forall_mem_cons.1 h.clean).2
  spaced := (Bool.and_eq_true_iff.1 h.spaced).2
  quoted := (Bool.and_eq_true_iff.1 h.quoted).2

theorem stops_hash {name text : Text} {isIdentifier : Bool} (hne : name ≠ [])
    (htext : continuesName text = false) :
    stops (printLeaf (.hash name isIdentifier)) (.leaf (.hash name isIdentifier)) text = true := by
  cases isIdentifier with
  | true => exact endsName_print (readName_printIdent hne rfl).1 htext
  | false => exact endsName_print (readName_printName name rfl) htext

theorem stops_dimension {digits unit text : Text} (hne : unit ≠ [])
    (hfaithful : isFaithfulUnit digits unit = true) (htext : continuesName text = false) :
    stops (digits ++ printUnit unit) (.leaf (.dimension digits unit)) text = true := by
  obtain ⟨-, -, hends⟩ := readName_printUnit hne hfaithful htext
  have hread := (@readName_printUnit digits unit [' '] hne hfaithful rfl).1
  simp only [stops, List.drop_left, Bool.and_eq_true]
  exact ⟨endsName_print hread htext, hends⟩

/-- A printed leaf ends before what comes behind it. -/
theorem stops_printLeaf {l : Leaf} {rest : List Lexeme} (h : AreOrderly (.leaf l :: rest))
    (hfaithful : l.isFaithful = true) (hjoins : joins (.leaf l) rest = false)
    (hchained : Stretch.chained (Stretch.written (some (edge (.leaf l))) rest) = true) :
    stops (printLeaf l) (.leaf l) (Stretch.textOf (Stretch.written (some (edge (.leaf l))) rest))
      = true := by
  have hwell := h.well (.leaf l) List.mem_cons_self
  have hfault := h.clean (.leaf l) List.mem_cons_self
  have hahead := ahead_written h.tail.well h.tail.clean hchained
  rw [isClean, Option.isNone_iff_eq_none] at hfault
  cases l with
  | whitespace t =>
    have hspace : ∀ u, rest.head? ≠ some (.leaf (.whitespace u)) := by
      intro u hu
      have hspaced := h.spaced
      rw [areSpaced, hu] at hspaced
      cases hspaced
    rw [stops, Bool.not_eq_true']
    exact hahead.not_space hspace
  | ident name =>
    simp only [joins, Bool.or_eq_false_iff, Bool.and_eq_false_iff, beq_eq_false_iff_ne] at hjoins
    refine stops_ident hwell.1 hahead (fun hname => ?_) fun hname => ?_
    · exact hjoins.1.resolve_left (absurd hname ·)
    · refine hjoins.2.resolve_left fun hnot => ?_
      exact hname.elim hnot.1 hnot.2
  | atKeyword name => exact endsName_print (readName_printIdent hwell.1 rfl).1 (hahead.endsName rfl)
  | hash name isIdentifier => exact stops_hash hwell.1.1 (hahead.endsName rfl)
  | number digits =>
    simp only [joins, Bool.or_eq_false_iff] at hjoins
    exact stops_number hahead hjoins.1 hjoins.2
  | dimension digits unit => exact stops_dimension hwell.2.1 hfaithful (hahead.endsName rfl)
  | unicodeRange first last => exact hahead.endsRange
  | literal t =>
    cases hwell with
    | char => exact endsMark_ahead rfl hahead hjoins
    | _ => rfl
  -- these bring their own ends
  | string value closed => rfl
  | url value closed => rfl
  | percentage digits => rfl
  | badString => cases hfault
  | badUrl => cases hfault
  | unmatched bracket => cases hfault

/-- A printed lexeme ends before what comes behind it. -/
theorem stops_print {a : Lexeme} {rest : List Lexeme} (h : AreOrderly (a :: rest))
    (hfaithful : a.isFaithful = true) (hjoins : joins a rest = false)
    (hchained : Stretch.chained (Stretch.written a.edge? rest) = true) :
    stops a.print a (Stretch.textOf (Stretch.written a.edge? rest)) = true := by
  cases a with
  | leaf l => exact stops_printLeaf h hfaithful hjoins hchained
  | function name =>
    have hquoted := (Bool.and_eq_true_iff.1 h.quoted).1
    simp only [Bool.or_eq_true, Bool.not_eq_true'] at hquoted
    rw [stops, Bool.or_eq_true, Bool.not_eq_true']
    refine hquoted.imp_right fun hstring => ?_
    exact startsQuote_written h.tail.well h.tail.clean hstring fun _ => rfl
  | comment text => rfl
  | opening bracket => rfl
  | closing bracket => rfl

end Lexeme

namespace Stretch

/-- **Printed lexemes end before one another**, unless a comment is missing between
them. -/
theorem chained_written {list : List Lexeme} (h : Lexeme.AreOrderly list)
    (hfaithful : ∀ a ∈ list, a.isFaithful = true) (hapart : Lexeme.areApart list = true) :
    ∀ previous, chained (written previous list) = true := by
  induction list with
  | nil => exact fun _ => rfl
  | cons a rest ih =>
    intro previous
    obtain ⟨hjoins, hrest⟩ := Bool.and_eq_true_iff.1 hapart
    obtain ⟨ha, hfaithful'⟩ := List.forall_mem_cons.1 hfaithful
    have hchained := ih h.tail hfaithful' hrest a.edge?
    have hstops := Lexeme.stops_print h ha (by simpa using hjoins) hchained
    have hself : chained (⟨a.print, a⟩ :: written a.edge? rest) = true := by
      rw [chained, hstops, hchained]
      rfl
    rw [written]
    split
    · exact Bool.and_eq_true_iff.2 ⟨rfl, hself⟩
    · exact hself

theorem reads_comment : Reads ⟨"/**/".toList, .comment []⟩ := by
  intro rest _
  exact ⟨'/', ['*', '*', '/'], rfl, rfl⟩

theorem reads_bracket {c : Char} {lexeme : Lexeme} (hc : IsPunctuation c)
    (h : ∀ rest, Lexeme.punctuation c rest = (lexeme, rest)) : Reads ⟨[c], lexeme⟩ :=
  fun rest _ => ⟨c, [], rfl, (hc.next rest).trans (h rest)⟩

theorem reads_print {a : Lexeme} (hwell : a.WellFormed) (hclean : a.isClean = true)
    (hfaithful : a.isFaithful = true) : Reads ⟨a.print, a⟩ := by
  cases a with
  | leaf l =>
    rw [Lexeme.isClean, Option.isNone_iff_eq_none] at hclean
    exact reads_leaf hwell hclean hfaithful
  | comment text => cases hclean
  | function name => exact reads_function hwell.1
  | opening bracket =>
    cases bracket <;> exact reads_bracket ⟨rfl, rfl, rfl, by decide⟩ fun _ => rfl
  | closing bracket =>
    cases bracket <;> exact reads_bracket ⟨rfl, rfl, rfl, by decide⟩ fun _ => rfl

theorem reads_written {list : List Lexeme} (hwell : ∀ a ∈ list, a.WellFormed)
    (hclean : ∀ a ∈ list, a.isClean = true) (hfaithful : ∀ a ∈ list, a.isFaithful = true) :
    ∀ previous, ∀ a ∈ written previous list, a.Reads := by
  induction list with
  | nil => exact fun _ _ ha => nomatch ha
  | cons b rest ih =>
    intro previous
    obtain ⟨hb, hrest⟩ := List.forall_mem_cons.1 hwell
    obtain ⟨hcleanb, hcleanrest⟩ := List.forall_mem_cons.1 hclean
    obtain ⟨hfaithfulb, hfaithfulrest⟩ := List.forall_mem_cons.1 hfaithful
    rw [written, List.forall_mem_append, List.forall_mem_cons]
    refine ⟨?_, reads_print hb hcleanb hfaithfulb, ih hrest hcleanrest hfaithfulrest b.edge?⟩
    split
    · exact List.forall_mem_singleton.2 reads_comment
    · exact nofun

/-- **Printed lexemes are read back**, with the comments between them. -/
theorem ofText_written {list : List Lexeme} (h : Lexeme.AreOrderly list)
    (hfaithful : ∀ a ∈ list, a.isFaithful = true) (hapart : Lexeme.areApart list = true)
    (previous : Option Edge) : ofText (textOf (written previous list)) = written previous list :=
  ofText_textOf (reads_written h.well h.clean hfaithful previous)
    (chained_written h hfaithful hapart previous)

end Stretch

end NestedSheet
