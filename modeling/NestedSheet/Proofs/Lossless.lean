import NestedSheet.Proofs.Segments

/-!
# Reading a selector line loses nothing

The alternatives of a line, with the commas and blanks that divide them put back, are
the line again, whatever stands in it; only a comma at the end, with the blanks behind
it, belongs to no alternative.  The tokens are in canonical form: plain text has none
of the characters that are treated apart and is never cut in two, and what stands in a
quoted span is what may stand between two quotes.  A span that nothing closes can only
be the last token of the last alternative, and then it reaches the end of the line.

Main results:

* `exists_spelled` — the alternatives with what divides them are the line.
* `parse_canonical` — the tokens are in canonical form.
* `parse_lossless` — both together.
-/

namespace NestedSheet.Selector

/-! ## Canonical tokens -/

/-- The token is plain text. -/
def Token.isLiteral : Token → Bool
  | .literal _ => true
  | _ => false

theorem Token.eq_literal_or (token : Token) :
    (∃ t, token = .literal t) ∨ token.isLiteral = false := by
  cases token with
  | literal t => exact Or.inl ⟨t, rfl⟩
  | parent => exact Or.inr rfl
  | quoted _ _ _ => exact Or.inr rfl

/-- Plain text is not empty and has none of the characters that are treated apart; a
quoted span starts with a quote, and its content may stand behind it. -/
def Token.Canonical : Token → Prop
  | .literal text => text ≠ [] ∧ ∀ c ∈ text, isPlain c = true
  | .parent => True
  | .quoted opening content _ =>
    ∃ q, Text.isQuote q = true ∧ opening = [q] ∧ Text.Inside q content

/-- The tokens are canonical, and no plain text follows another one. -/
structure Alternative.Canonical (tokens : Alternative) : Prop where
  each : ∀ token ∈ tokens, token.Canonical
  apart : tokens.IsChain fun token next => token.isLiteral = false ∨ next.isLiteral = false

theorem Alternative.canonical_nil : Alternative.Canonical [] :=
  ⟨nofun, List.IsChain.nil⟩

theorem Alternative.Canonical.cons {token : Token} {tokens : Alternative}
    (h : tokens.Canonical) (htoken : token.Canonical)
    (hhead : token.isLiteral = true → ∀ text, tokens.head? ≠ some (.literal text)) :
    Alternative.Canonical (token :: tokens) := by
  refine ⟨List.forall_mem_cons.2 ⟨htoken, h.each⟩, ?_⟩
  cases tokens with
  | nil => exact List.IsChain.singleton token
  | cons next tokens =>
    refine List.isChain_cons_cons.2 ⟨?_, h.apart⟩
    by_contra hboth
    rw [not_or, Bool.not_eq_false, Bool.not_eq_false] at hboth
    rcases next.eq_literal_or with ⟨text, rfl⟩ | hnext
    · exact hhead hboth.1 text rfl
    · exact Bool.false_ne_true (hnext.symm.trans hboth.2)

theorem Token.Precedes.canonical {token : Token} {rest : Text} (h : token.Precedes rest) :
    token.Canonical := by
  cases h with
  | literal hne hplain _ => exact ⟨hne, hplain⟩
  | parent => trivial
  | quoted hq hinside => exact ⟨_, hq, rfl, hinside⟩

/-- The tokens of a line are in canonical form. -/
theorem parse_canonical (t : Text) : ∀ alternative ∈ parse t, alternative.Canonical := by
  induction t using line_induction with
  | nil =>
    rw [parse_nil]
    exact List.forall_mem_singleton.2 Alternative.canonical_nil
  | token token rest htoken ih =>
    obtain ⟨first, others, hparse⟩ := List.exists_cons_of_ne_nil (parse_ne_nil rest)
    rw [parse_precedes htoken]
    rw [hparse, List.forall_mem_cons] at ih
    rw [hparse, List.modifyHead_cons, List.forall_mem_cons]
    refine ⟨ih.1.cons htoken.canonical fun hliteral => ?_, ih.2⟩
    -- behind a whole run of plain characters there is no plain text
    cases htoken with
    | literal _ _ hrest =>
      obtain ⟨first', others', hparse', hfirst⟩ := head?_parse hrest
      rw [hparse] at hparse'
      rwa [(List.cons.inj hparse').1]
    | parent => cases hliteral
    | quoted _ _ => cases hliteral
  | comma blanks rest hblanks hrest ih =>
    rw [parse_comma hblanks hrest]
    exact List.forall_mem_cons.2 ⟨Alternative.canonical_nil, ih⟩
  | lastComma blanks hblanks =>
    rw [parse_lastComma hblanks]
    exact List.forall_mem_singleton.2 Alternative.canonical_nil
  | unclosed q inside closing hq hinside hclosing =>
    rw [parse_unclosed hq hinside hclosing]
    refine List.forall_mem_singleton.2 (Alternative.canonical_nil.cons ⟨q, hq, rfl, hinside⟩ ?_)
    exact nofun

/-! ## Putting a line together again -/

/-- A comma and the blanks behind it. -/
def IsSeparator (t : Text) : Prop :=
  ∃ blanks, (∀ c ∈ blanks, Text.isBlank c = true) ∧ t = ',' :: blanks

/-- The text of alternatives with these separators between them. -/
def spelled (first : Alternative) (separators : List Text) (rest : Line) : Text :=
  first.expr ++ (List.zipWith (fun separator (alternative : Alternative) =>
    separator ++ alternative.expr) separators rest).flatten

/-- The last token of the last alternative is a quoted span that nothing closes, and
all other spans are terminated. -/
def Line.EndsOpen (line : Line) : Prop :=
  ∃ (front : Line) (last : Alternative) (opening content closing : Text),
    line = front ++ [last ++ [.quoted opening content closing]]
      ∧ (closing = [] ∨ closing = ['\\'])
      ∧ front.isTerminated = true ∧ last.all Token.isTerminated = true

theorem Line.EndsOpen.modifyHead {line : Line} (h : line.EndsOpen) {token : Token}
    (htoken : token.isTerminated = true) : Line.EndsOpen (line.modifyHead (token :: ·)) := by
  obtain ⟨front, last, opening, content, closing, rfl, hclosing, hfront, hlast⟩ := h
  cases front with
  | nil =>
    refine ⟨[], token :: last, opening, content, closing, rfl, hclosing, rfl, ?_⟩
    rw [List.all_cons, htoken, hlast]
    rfl
  | cons first front =>
    refine ⟨(token :: first) :: front, last, opening, content, closing, rfl, hclosing, ?_, hlast⟩
    have hmodified := isTerminated_modifyHead token (List.cons_ne_nil first front)
    rwa [htoken, hfront] at hmodified

theorem Line.EndsOpen.cons_nil {line : Line} (h : line.EndsOpen) : Line.EndsOpen ([] :: line) := by
  obtain ⟨front, last, opening, content, closing, rfl, hclosing, hfront, hlast⟩ := h
  exact ⟨[] :: front, last, opening, content, closing, rfl, hclosing, hfront, hlast⟩

/-- The alternatives with what divides them are the line, but for a comma at its end;
there is none behind a quoted span that nothing closes. -/
theorem exists_spelled (t : Text) :
    ∃ (first : Alternative) (rest : Line) (separators : List Text) (tail : Text),
      parse t = first :: rest ∧ separators.length = rest.length
        ∧ (∀ separator ∈ separators, IsSeparator separator) ∧ (tail = [] ∨ IsSeparator tail)
        ∧ t = spelled first separators rest ++ tail
        ∧ ((parse t).isTerminated = true ∨ (parse t).EndsOpen ∧ tail = []) := by
  induction t using line_induction with
  | nil =>
    refine ⟨[], [], [], [], parse_nil, rfl, nofun, Or.inl rfl, rfl, Or.inl ?_⟩
    rw [parse_nil]
    rfl
  | token token rest htoken ih =>
    obtain ⟨first, others, separators, tail, hparse, hlength, hseparators, htail, htext, hopen⟩ :=
      ih
    refine ⟨token :: first, others, separators, tail, ?_, hlength, hseparators, htail, ?_, ?_⟩
    · rw [parse_precedes htoken, hparse]
      rfl
    · conv_lhs => rw [htext]
      simp [spelled]
    · rw [parse_precedes htoken]
      rcases hopen with hclosed | ⟨hopen, hnil⟩
      · left
        rw [isTerminated_modifyHead token (parse_ne_nil rest), htoken.isTerminated, hclosed]
        rfl
      · exact Or.inr ⟨hopen.modifyHead htoken.isTerminated, hnil⟩
  | comma blanks rest hblanks hrest ih =>
    obtain ⟨first, others, separators, tail, hparse, hlength, hseparators, htail, htext, hopen⟩ :=
      ih
    -- nothing stands before the comma, so it is the first separator
    refine ⟨[], first :: others, (',' :: blanks) :: separators, tail, ?_, ?_, ?_, htail, ?_, ?_⟩
    · rw [parse_comma hblanks hrest, hparse]
    · rw [List.length_cons, List.length_cons, hlength]
    · exact List.forall_mem_cons.2 ⟨⟨blanks, hblanks, rfl⟩, hseparators⟩
    · conv_lhs => rw [htext]
      simp [spelled]
    · rw [parse_comma hblanks hrest]
      exact hopen.imp id fun h => ⟨h.1.cons_nil, h.2⟩
  | lastComma blanks hblanks =>
    refine ⟨[], [], [], ',' :: blanks, parse_lastComma hblanks, rfl, nofun,
      Or.inr ⟨blanks, hblanks, rfl⟩, rfl, Or.inl ?_⟩
    rw [parse_lastComma hblanks]
    rfl
  | unclosed q inside closing hq hinside hclosing =>
    have hparse := parse_unclosed hq hinside hclosing
    refine ⟨[.quoted [q] inside closing], [], [], [], hparse, rfl, nofun, Or.inl rfl, ?_, ?_⟩
    · simp [spelled, Token.expr]
    · rw [hparse]
      exact Or.inr ⟨⟨[], [], [q], inside, closing, rfl, hclosing, rfl, rfl⟩, rfl⟩

/-- **Reading loses nothing, and what it gives is canonical.**  Every line has at least
one alternative, and it is the text of its alternatives with a comma and blanks between
each two of them, and nothing or a comma and blanks behind the last one.  In every
alternative plain text is not empty, has no comma, no marker and no quote in it and does
not follow plain text, and the content of a quoted span may stand behind its quote.
Every span ends with its quote, but for one that may be the last token of the last
alternative; that one has nothing or a backslash for its end, and reaches the end of the
line. -/
theorem parse_lossless (t : Text) :
    ∃ (first : Alternative) (rest : Line) (separators : List Text) (tail : Text),
      parse t = first :: rest ∧ separators.length = rest.length
        ∧ (∀ separator ∈ separators, IsSeparator separator) ∧ (tail = [] ∨ IsSeparator tail)
        ∧ t = spelled first separators rest ++ tail
        ∧ (∀ alternative ∈ parse t, alternative.Canonical)
        ∧ ((parse t).isTerminated = true ∨ (parse t).EndsOpen ∧ tail = []) := by
  obtain ⟨first, rest, separators, tail, hparse, hlength, hseparators, htail, htext, hopen⟩ :=
    exists_spelled t
  exact ⟨first, rest, separators, tail, hparse, hlength, hseparators, htail, htext,
    parse_canonical t, hopen⟩

end NestedSheet.Selector
