import Mathlib.Data.List.Chain
import NestedSheet.Proofs.Lossless

/-!
# Reading canonical selector lines back

Alternatives in canonical form are read back from their text, with commas between
them and any blanks behind the commas.  A token is read as itself because of what
follows it: plain text is followed by no plain text, a quoted span ends with its quote,
and only the last span of the line may do without.  A comma divides what stands around
it because something other than a blank follows; so no alternative but the first may
start with a blank, and the last one may not be empty.

Together with the fact that reading loses nothing, this says that the canonical lines
are just what selectors are read as.

Main results:

* `parse_alternative` — the tokens of an alternative in front of a line.
* `parse_separated` — alternatives with the same separator between each two of them.
* `parse_print` — both separators that are written.
-/

namespace NestedSheet.Selector

/-! ## What follows a token -/

/-- A text that goes on with a token other than plain text starts with no plain
character. -/
theorem head?_expr {token : Token} (h : token.Canonical) (hliteral : token.isLiteral = false)
    (rest : Text) : (token.expr ++ rest).head?.all (fun c => !isPlain c) = true := by
  cases token with
  | literal text => cases hliteral
  | parent => rfl
  | quoted opening content closing =>
    obtain ⟨q, hq, rfl, -⟩ := h
    simp [Token.expr, isPlain, hq]

/-- A canonical token that is terminated stands in front of any text, if plain text is
not followed by a plain character. -/
theorem Token.Canonical.precedes {token : Token} {rest : Text} (h : token.Canonical)
    (hterminated : token.isTerminated = true)
    (hrest : token.isLiteral = true → rest.head?.all (fun c => !isPlain c) = true) :
    token.Precedes rest := by
  cases token with
  | literal text => exact .literal h.1 h.2 (hrest rfl)
  | parent => exact .parent
  | quoted opening content closing =>
    obtain ⟨q, hq, rfl, hinside⟩ := h
    obtain rfl : closing = [q] := by simpa [Token.isTerminated] using hterminated
    exact .quoted hq hinside

/-- The tokens of an alternative in front of a line are put in front of its first
alternative. -/
theorem parse_alternative {tokens : Alternative} {rest : Text} (h : tokens.Canonical)
    (hterminated : tokens.all Token.isTerminated = true)
    (hrest : rest.head?.all (fun c => !isPlain c) = true) :
    parse (tokens.expr ++ rest) = (parse rest).modifyHead (tokens ++ ·) := by
  induction tokens with
  | nil =>
    obtain ⟨first, others, hparse⟩ := List.exists_cons_of_ne_nil (parse_ne_nil rest)
    rw [Alternative.expr_nil, List.nil_append, hparse]
    rfl
  | cons token tokens ih =>
    obtain ⟨htoken, hmore⟩ := List.forall_mem_cons.1 h.each
    obtain ⟨hended, hothers⟩ := Bool.and_eq_true_iff.1 (List.all_cons ▸ hterminated)
    have hfollows : token.isLiteral = true →
        (Alternative.expr tokens ++ rest).head?.all (fun c => !isPlain c) = true := by
      intro hliteral
      cases tokens with
      | nil => exact hrest
      | cons next tokens =>
        -- no plain text follows plain text
        have hapart := (List.isChain_cons_cons.1 h.apart).1
        rw [hliteral, or_iff_right Bool.true_eq_false.mp] at hapart
        rw [Alternative.expr_cons, List.append_assoc]
        exact head?_expr (hmore next List.mem_cons_self) hapart _
    rw [Alternative.expr_cons, List.append_assoc, parse_precedes (htoken.precedes hended hfollows),
      ih ⟨hmore, h.apart.tail⟩ hothers, List.modifyHead_modifyHead]
    rfl

/-! ## The last alternative -/

/-- An alternative by itself is read as itself, also with a last quoted span that
nothing closes. -/
theorem parse_last {tokens : Alternative} (h : tokens.Canonical)
    (hquotes : Line.isTerminated [tokens] = true ∨ Line.EndsOpen [tokens]) :
    parse tokens.expr = [tokens] := by
  rcases hquotes with hterminated | ⟨front, last, opening, content, closing, hline, hclosing, -, hlast⟩
  · have hall : tokens.all Token.isTerminated = true := by
      simpa [Line.isTerminated] using hterminated
    have hparse := @parse_alternative tokens [] h hall rfl
    rw [List.append_nil, parse_nil] at hparse
    simpa using hparse
  · -- the open span is the last token, and the tokens before it stand in front of it
    obtain rfl : front = [] := by
      rcases List.eq_nil_or_concat front with rfl | ⟨front, tokens', rfl⟩
      · rfl
      · have hlength := congrArg List.length hline
        simp at hlength
    obtain rfl : tokens = last ++ [.quoted opening content closing] := by simpa using hline
    obtain ⟨q, hq, rfl, hinside⟩ := h.each (.quoted opening content closing) (by simp)
    have hfront : Alternative.Canonical last :=
      ⟨fun token htoken => h.each token (List.mem_append_left _ htoken), h.apart.left_of_append⟩
    have hexpr : Alternative.expr (last ++ [.quoted [q] content closing])
        = last.expr ++ (q :: (content ++ closing)) := by
      simp [Alternative.expr, Token.expr]
    have hplain : isPlain q = false := by simp [isPlain, hq]
    rw [hexpr, parse_alternative hfront hlast (by simp [hplain]), parse_unclosed hq hinside hclosing]
    rfl

/-! ## Lines -/

/-- No alternative after the first starts with a blank, and the last one is not empty
unless it is the only one. -/
structure Line.Separable (line : Line) : Prop where
  start : ∀ alternative ∈ line.tail, ∀ text, alternative.head? = some (.literal text) →
    startsInk text = true
  last : line.length = 1 ∨ line.getLast? ≠ some []

theorem Line.Separable.tail {first second : Alternative} {line : Line}
    (h : Line.Separable (first :: second :: line)) : Line.Separable (second :: line) := by
  refine ⟨fun alternative hmem => h.start alternative (List.mem_cons_of_mem second hmem), ?_⟩
  refine h.last.imp (fun hlength => ?_) (fun hlast => ?_)
  · simp at hlength
  · rwa [List.getLast?_cons_cons] at hlast

/-- What the quotes of a line have to be, for the alternatives behind the first one. -/
theorem Line.quotes_tail {first second : Alternative} {line : Line}
    (h : Line.isTerminated (first :: second :: line) = true
      ∨ Line.EndsOpen (first :: second :: line)) :
    first.all Token.isTerminated = true
      ∧ (Line.isTerminated (second :: line) = true ∨ Line.EndsOpen (second :: line)) := by
  rcases h with hterminated | ⟨front, last, opening, content, closing, hline, hclosing, hfront, hlast⟩
  · rw [Line.isTerminated, List.all_cons, Bool.and_eq_true] at hterminated
    exact ⟨hterminated.1, Or.inl hterminated.2⟩
  · -- the open span is in the last alternative, which is not the first one
    cases front with
    | nil => simp at hline
    | cons tokens front =>
      obtain ⟨rfl, hrest⟩ := List.cons.inj hline
      rw [Line.isTerminated, List.all_cons, Bool.and_eq_true] at hfront
      exact ⟨hfront.1, Or.inr ⟨front, last, opening, content, closing, hrest, hclosing, hfront.2, hlast⟩⟩

/-- The text of the alternatives behind a comma does not start with a blank. -/
theorem startsInk_separated {blanks : Text} {first second : Alternative} {line : Line}
    (h : Line.Separable (first :: second :: line))
    (hcanonical : ∀ alternative ∈ second :: line, Alternative.Canonical alternative) :
    startsInk ((',' :: blanks).intercalate ((second :: line).map Alternative.expr)) = true := by
  have hsecond := (List.forall_mem_cons.1 hcanonical).1
  cases second with
  | nil =>
    -- an empty alternative is not the last one, so that a comma follows
    cases line with
    | nil =>
      rcases h.last with hlength | hlast
      · simp at hlength
      · simp at hlast
    | cons third line => rfl
  | cons token tokens =>
    have hstart : startsInk (Alternative.expr (token :: tokens)) = true := by
      rw [Alternative.expr_cons]
      refine startsInk_append ?_ _
      cases token with
      | literal text => exact h.start _ List.mem_cons_self text rfl
      | parent => rfl
      | quoted opening content closing =>
        obtain ⟨q, hq, rfl, -⟩ := hsecond.each _ List.mem_cons_self
        have hblank : Text.isBlank q = false := by
          rw [Bool.eq_false_iff]
          intro hblank
          rw [(isQuote_of_isBlank hblank).1] at hq
          cases hq
        simp [startsInk, Token.expr, hblank]
    cases line with
    | nil => simpa using hstart
    | cons third line =>
      rw [List.map_cons, List.map_cons, List.intercalate_cons_cons, List.append_assoc]
      exact startsInk_append hstart _

/-- Canonical alternatives with commas between them, each followed by the same blanks,
are read back. -/
theorem parse_separated {blanks : Text} (hblanks : ∀ c ∈ blanks, Text.isBlank c = true)
    {line : Line} (hne : line ≠ []) (hcanonical : ∀ alternative ∈ line, alternative.Canonical)
    (hquotes : line.isTerminated = true ∨ line.EndsOpen) (hseparable : line.Separable) :
    parse ((',' :: blanks).intercalate (line.map Alternative.expr)) = line := by
  induction line with
  | nil => exact absurd rfl hne
  | cons first line ih =>
    obtain ⟨hfirst, hothers⟩ := List.forall_mem_cons.1 hcanonical
    cases line with
    | nil => simpa using parse_last hfirst hquotes
    | cons second line =>
      obtain ⟨hterminated, hquotes⟩ := Line.quotes_tail hquotes
      have hrest := ih nofun hothers hquotes hseparable.tail
      have hink := @startsInk_separated blanks first second line hseparable hothers
      rw [List.map_cons, List.map_cons, List.intercalate_cons_cons, ← List.map_cons,
        List.append_assoc, parse_alternative hfirst hterminated rfl, List.cons_append,
        parse_comma hblanks hink, hrest, List.modifyHead_cons, List.append_nil]

/-- **Reading undoes writing.**  A line that is not empty, whose alternatives are
canonical, in which every quoted span is terminated but for one that may be the last
token of all, in which no alternative after the first starts with a blank, and the last
one is not empty unless it is the only one, is read back from the text of its
alternatives, with a comma and a space between each two of them or with only a comma. -/
theorem parse_print {line : Line} (hne : line ≠ [])
    (hcanonical : ∀ alternative ∈ line, alternative.Canonical)
    (hquotes : line.isTerminated = true ∨ line.EndsOpen) (hseparable : line.Separable) :
    parse ([',', ' '].intercalate (line.map Alternative.expr)) = line
      ∧ parse ([','].intercalate (line.map Alternative.expr)) = line :=
  ⟨parse_separated (List.all_eq_true.1 rfl) hne hcanonical hquotes hseparable,
    parse_separated (List.all_eq_true.1 rfl) hne hcanonical hquotes hseparable⟩

/-- A marker with plain text, an alternative without tokens, and a quoted span that
ends with the text, behind a lone backslash. -/
theorem parse_print_open :
    parse "&.a, , \"x,&\\".toList
        = [[.parent, .literal ".a".toList], [], [.quoted ['"'] "x,&".toList ['\\']]]
      ∧ parse "&.a,,\"x,&\\".toList
        = [[.parent, .literal ".a".toList], [], [.quoted ['"'] "x,&".toList ['\\']]] := by
  have hinside : Text.Inside '"' "x,&".toList :=
    .char (by decide) (by decide) (.char (by decide) (by decide)
      (.char (by decide) (by decide) .nil))
  have hprint := @parse_print
    [[.parent, .literal ".a".toList], [], [.quoted ['"'] "x,&".toList ['\\']]] nofun ?_ ?_ ?_
  · exact hprint
  · rw [List.forall_mem_cons, List.forall_mem_cons, List.forall_mem_singleton]
    refine ⟨⟨?_, ?_⟩, Alternative.canonical_nil, ⟨?_, List.IsChain.singleton _⟩⟩
    · rw [List.forall_mem_cons, List.forall_mem_singleton]
      exact ⟨trivial, nofun, List.all_eq_true.1 rfl⟩
    · exact List.isChain_cons_cons.2 ⟨Or.inl rfl, List.IsChain.singleton _⟩
    · rw [List.forall_mem_singleton]
      exact ⟨'"', rfl, rfl, hinside⟩
  · exact Or.inr ⟨[[.parent, .literal ".a".toList], []], [], ['"'], "x,&".toList, ['\\'], rfl,
      Or.inr rfl, rfl, rfl⟩
  · refine ⟨?_, Or.inr (by decide)⟩
    rw [List.tail_cons, List.forall_mem_cons, List.forall_mem_singleton]
    exact ⟨nofun, nofun⟩

end NestedSheet.Selector
