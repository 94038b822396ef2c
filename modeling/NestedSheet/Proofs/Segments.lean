import NestedSheet.Proofs.Closed

/-!
# A selector line, segment by segment

A line is read one character at a time where it is plain text, and then the plain
characters that follow each other are put together.  Seen from the result, the line
is cut into segments: the texts of its tokens, where a plain text is a whole run of
plain characters, and the commas with the blanks behind them.  Only the last segment
may be a quote that nothing closes, and it takes in the rest of the line.

Main results:

* `parse_precedes` — a token in front of a line is put in front of its first
  alternative.
* `parse_comma`, `parse_lastComma`, `parse_unclosed` — all other segments.
* `line_induction` — induction over a line, one segment at a time.
* `terminated_iff` — the quotes of a line are closed exactly if its quoted spans are.
-/

namespace NestedSheet

namespace Text

/-- The scanner takes off all of a string that nothing closes, but for a backslash at
its end. -/
theorem body_unclosed {q : Char} {inside closing : Text} (h : Inside q inside)
    (hclosing : closing = [] ∨ closing = ['\\']) :
    body q (inside ++ closing) = (inside, closing) := by
  induction h with
  | nil =>
    rcases hclosing with rfl | rfl
    · rfl
    · rw [List.nil_append, body]
      · rw [if_pos (Or.inr rfl)]
      · exact fun c cs _ => (List.cons_ne_nil c cs).symm
  | @char c t hcq hc _ ih =>
    rw [List.cons_append, body]
    · rw [if_neg (by simp [hcq, hc]), ih]
    · intro d ds hd
      exact absurd hd hc
  | escape _ ih => rw [List.cons_append, List.cons_append, body, ih]

end Text

namespace Selector

theorem isPlain_iff {c : Char} : isPlain c = true ↔
    c ≠ parentMark ∧ c ≠ ',' ∧ Text.isQuote c = false := by
  simp [isPlain, and_assoc]

theorem isQuote_of_isPlain {t : Text} (h : ∀ c ∈ t, isPlain c = true) :
    ∀ c ∈ t, Text.isQuote c = false :=
  fun c hc => (isPlain_iff.1 (h c hc)).2.2

theorem ne_of_isQuote {q : Char} (hq : Text.isQuote q = true) : q ≠ parentMark ∧ q ≠ ',' := by
  constructor
  · rintro rfl
    cases hq
  · rintro rfl
    cases hq

/-- Neither quotes nor dollar signs stand in a comma and the blanks behind it. -/
theorem separator_plain {blanks : Text} (hblanks : ∀ c ∈ blanks, Text.isBlank c = true) :
    ∀ c ∈ ',' :: blanks, Text.isQuote c = false ∧ c ≠ '$' := by
  refine List.forall_mem_cons.2 ⟨by decide, fun c hc => ⟨(isQuote_of_isBlank (hblanks c hc)).1, ?_⟩⟩
  rintro rfl
  cases hblanks _ hc

/-! ## Tokens in front of a line -/

theorem divide_cons_token (token : Token) (list : List Item) :
    divide (.token token :: list) = (divide list).modifyHead (token :: ·) := by
  rw [divide]
  split
  · next h => exact absurd h (divide_ne_nil list)
  · next h => rw [h, List.modifyHead_cons]

/-- Putting plain text before plain text puts the two together. -/
theorem consLiteral_consLiteral (text text' : Text) (tokens : Alternative) :
    Alternative.consLiteral text (Alternative.consLiteral text' tokens)
      = Alternative.consLiteral (text ++ text') tokens := by
  unfold Alternative.consLiteral
  by_cases htext : text = []
  · simp [htext]
  · by_cases htext' : text' = []
    · simp [htext']
    · simp only [List.isEmpty_iff, htext, htext', List.append_eq_nil_iff, false_and, if_false]
      -- the plain text may be followed by plain text itself
      rcases tokens with _ | ⟨_ | _ | _, tokens⟩ <;> simp

/-- The first item of a line belongs to its first alternative, and is merged into it. -/
theorem parse_of_items {t rest : Text} {token : Token} {f : Alternative → Alternative}
    (hitems : items t = .token token :: items rest)
    (hf : ∀ tokens, Alternative.merge (token :: tokens) = f (Alternative.merge tokens)) :
    parse t = (parse rest).modifyHead f := by
  rw [parse, parse, hitems, divide_cons_token]
  cases divide (items rest) with
  | nil => rfl
  | cons first others => simp [hf]

theorem parse_nil : parse [] = [[]] := by
  rw [parse, items]
  rfl

/-- A run of plain characters is put before the plain text that it is followed by. -/
theorem parse_run {run : Text} (hrun : ∀ c ∈ run, isPlain c = true) (rest : Text) :
    parse (run ++ rest) = (parse rest).modifyHead (Alternative.consLiteral run) := by
  induction run with
  | nil =>
    obtain ⟨first, others, h⟩ := List.exists_cons_of_ne_nil (parse_ne_nil rest)
    rw [List.nil_append, h]
    rfl
  | cons c cs ih =>
    obtain ⟨hc, hcs⟩ := List.forall_mem_cons.1 hrun
    obtain ⟨hparent, hcomma, hquote⟩ := isPlain_iff.1 hc
    have hitems : items (c :: cs ++ rest) = .token (.literal [c]) :: items (cs ++ rest) := by
      rw [List.cons_append, items, if_neg hparent, if_neg hcomma, if_neg (by simp [hquote])]
    rw [parse_of_items hitems fun _ => rfl, ih hcs, List.modifyHead_modifyHead]
    congr 1
    funext tokens
    exact consLiteral_consLiteral [c] cs tokens

theorem parse_marker (rest : Text) :
    parse (parentMark :: rest) = (parse rest).modifyHead (.parent :: ·) :=
  parse_of_items (by rw [items, if_pos rfl]) fun _ => rfl

theorem parse_string {q : Char} (hq : Text.isQuote q = true) {inside : Text}
    (hinside : Text.Inside q inside) (rest : Text) :
    parse (q :: (inside ++ q :: rest))
      = (parse rest).modifyHead (.quoted [q] inside [q] :: ·) :=
  parse_of_items (items_quotation hq hinside rest) fun _ => rfl

/-- A quote that nothing closes takes in the rest of the line. -/
theorem parse_unclosed {q : Char} (hq : Text.isQuote q = true) {inside closing : Text}
    (hinside : Text.Inside q inside) (hclosing : closing = [] ∨ closing = ['\\']) :
    parse (q :: (inside ++ closing)) = [[.quoted [q] inside closing]] := by
  obtain ⟨hparent, hcomma⟩ := ne_of_isQuote hq
  have hspan : quotedSpan q (inside ++ closing) = (.quoted [q] inside closing, []) := by
    rw [quotedSpan, Text.body_unclosed hinside hclosing]
    rcases hclosing with rfl | rfl <;> rfl
  rw [parse, items, if_neg hparent, if_neg hcomma, if_pos hq, hspan, items]
  rfl

/-- A comma divides what stands before it from what stands behind the blanks after
it. -/
theorem parse_comma {blanks rest : Text} (hblanks : ∀ c ∈ blanks, Text.isBlank c = true)
    (hrest : startsInk rest = true) : parse (',' :: (blanks ++ rest)) = [] :: parse rest := by
  cases rest with
  | nil => cases hrest
  | cons c cs =>
    have hc : Text.isBlank c = false := by simpa [startsInk] using hrest
    have hskip : Text.stripStart (blanks ++ c :: cs) = c :: cs := by
      rw [Text.stripStart, List.dropWhile_append_of_pos hblanks, List.dropWhile_cons,
        if_neg (by simp [hc])]
    rw [parse, items, if_neg (by decide), if_pos rfl, hskip, if_neg (by simp)]
    rfl

/-- A comma that only blanks follow divides nothing. -/
theorem parse_lastComma {blanks : Text} (hblanks : ∀ c ∈ blanks, Text.isBlank c = true) :
    parse (',' :: blanks) = [[]] := by
  have hskip : Text.stripStart blanks = [] := List.dropWhile_eq_nil_iff.2 hblanks
  rw [parse, items, if_neg (by decide), if_pos rfl, hskip]
  rfl

/-- The token stands in front of `rest` in a line: a plain text is a whole run of plain
characters, and a quoted span is a complete string. -/
inductive Token.Precedes (rest : Text) : Token → Prop
  | literal {text : Text} : text ≠ [] → (∀ c ∈ text, isPlain c = true) →
    rest.head?.all (fun c => !isPlain c) = true → Precedes rest (.literal text)
  | parent : Precedes rest .parent
  | quoted {q : Char} {inside : Text} : Text.isQuote q = true → Text.Inside q inside →
    Precedes rest (.quoted [q] inside [q])

/-! ## Induction over a line -/

/-- A plain character starts a run, which goes as far as there are plain characters. -/
theorem exists_run {c : Char} (hc : isPlain c = true) (cs : Text) : ∃ run rest,
    c :: cs = run ++ rest ∧ Token.Precedes rest (.literal run) ∧ rest.length ≤ cs.length := by
  refine ⟨(c :: cs).takeWhile isPlain, (c :: cs).dropWhile isPlain,
    List.takeWhile_append_dropWhile.symm, .literal (by simp [hc])
      (fun d hd => List.mem_takeWhile_imp hd) ?_, ?_⟩
  · have hstop := List.head?_dropWhile_not isPlain (c :: cs)
    cases hdrop : (c :: cs).dropWhile isPlain with
    | nil => rfl
    | cons d ds =>
      simp only [hdrop, List.head?_cons] at hstop
      simp [hstop]
  · rw [List.dropWhile_cons_of_pos hc]
    exact (List.dropWhile_sublist _).length_le

/-- The blanks behind a comma belong to it. -/
theorem exists_blanks (cs : Text) : ∃ blanks rest, cs = blanks ++ rest
    ∧ (∀ c ∈ blanks, Text.isBlank c = true) ∧ (rest = [] ∨ startsInk rest = true) := by
  refine ⟨cs.takeWhile Text.isBlank, cs.dropWhile Text.isBlank,
    List.takeWhile_append_dropWhile.symm, fun c hc => List.mem_takeWhile_imp hc, ?_⟩
  have hstop := List.head?_dropWhile_not Text.isBlank cs
  cases hdrop : cs.dropWhile Text.isBlank with
  | nil => exact Or.inl rfl
  | cons d ds =>
    simp only [hdrop, List.head?_cons] at hstop
    exact Or.inr (by simp [startsInk, hstop])

/-- A quote starts a string, or nothing closes it. -/
theorem exists_span {q : Char} (hq : Text.isQuote q = true) (cs : Text) : ∃ inside,
    Text.Inside q inside ∧ ((∃ rest, cs = inside ++ q :: rest)
      ∨ ∃ closing, cs = inside ++ closing ∧ (closing = [] ∨ closing = ['\\'])) := by
  rcases Text.quoted_cases hq cs with ⟨inside, rest, hinside, hcs, -⟩ | ⟨-, htake, -⟩
  · exact ⟨inside, hinside, Or.inl ⟨rest, hcs⟩⟩
  · refine ⟨_, Text.inside_body q cs, Or.inr ⟨_, (Text.body_append q cs).symm, ?_⟩⟩
    rcases Text.body_rest q cs with h | ⟨rest, h⟩ | h
    · exact Or.inl h
    · rw [h] at htake
      exact absurd rfl htake
    · exact Or.inr h

/-- Induction over a line, one segment at a time. -/
theorem line_induction {motive : Text → Prop} (nil : motive [])
    (token : ∀ (token : Token) (rest : Text), token.Precedes rest → motive rest →
      motive (token.expr ++ rest))
    (comma : ∀ blanks rest : Text, (∀ c ∈ blanks, Text.isBlank c = true) → startsInk rest = true →
      motive rest → motive (',' :: (blanks ++ rest)))
    (lastComma : ∀ blanks : Text, (∀ c ∈ blanks, Text.isBlank c = true) → motive (',' :: blanks))
    (unclosed : ∀ (q : Char) (inside closing : Text), Text.isQuote q = true →
      Text.Inside q inside → closing = [] ∨ closing = ['\\'] → motive (q :: (inside ++ closing)))
    (t : Text) : motive t := by
  induction hlength : t.length using Nat.strong_induction_on generalizing t with
  | _ n ih =>
    subst hlength
    cases t with
    | nil => exact nil
    | cons c cs =>
      -- every segment has a character at least, so that the rest of the line is shorter
      have hrest : ∀ rest : Text, rest.length ≤ cs.length → motive rest := by
        intro rest hle
        exact ih rest.length (by rw [List.length_cons]; omega) rest rfl
      by_cases hplain : isPlain c = true
      · obtain ⟨run, rest, hrun, hprecedes, hle⟩ := exists_run hplain cs
        rw [hrun]
        exact token (.literal run) rest hprecedes (hrest rest hle)
      by_cases hparent : c = parentMark
      · subst hparent
        exact token .parent cs .parent (hrest cs (Nat.le_refl _))
      by_cases hcomma : c = ','
      · obtain ⟨blanks, rest, rfl, hblanks, hend | hink⟩ := exists_blanks cs
        · rw [hcomma, hend, List.append_nil]
          exact lastComma blanks hblanks
        · rw [hcomma]
          exact comma blanks rest hblanks hink (hrest rest (by simp))
      -- what is neither plain nor a marker nor a comma is a quote
      have hquote : Text.isQuote c = true := by
        simpa [isPlain, hparent, hcomma] using hplain
      obtain ⟨inside, hinside, ⟨rest, rfl⟩ | ⟨closing, rfl, hclosing⟩⟩ := exists_span hquote cs
      · have hstring := token _ rest (.quoted hquote hinside) (hrest rest (by simp; omega))
        simpa [Token.expr] using hstring
      · exact unclosed c inside closing hquote hinside hclosing

/-- A line that does not start with a plain character has no plain text in front. -/
theorem head?_parse {t : Text} (ht : t.head?.all (fun c => !isPlain c) = true) :
    ∃ first rest, parse t = first :: rest ∧ ∀ text, first.head? ≠ some (.literal text) := by
  induction t using line_induction with
  | nil => exact ⟨[], [], parse_nil, by simp⟩
  | token token rest htoken _ =>
    obtain ⟨first, others, hparse⟩ := List.exists_cons_of_ne_nil (parse_ne_nil rest)
    cases htoken with
    | @literal text hne hplain _ =>
      obtain ⟨c, cs, rfl⟩ := List.exists_cons_of_ne_nil hne
      have hc := hplain c List.mem_cons_self
      simp [Token.expr, hc] at ht
    | parent =>
      refine ⟨.parent :: first, others, ?_, by simp⟩
      rw [Token.expr, List.singleton_append, parse_marker, hparse]
      rfl
    | @quoted q inside hq hinside =>
      refine ⟨.quoted [q] inside [q] :: first, others, ?_, by simp⟩
      have hstring := parse_string hq hinside rest
      rw [hparse] at hstring
      simpa [Token.expr] using hstring
  | comma blanks rest hblanks hrest _ => exact ⟨[], _, parse_comma hblanks hrest, by simp⟩
  | lastComma blanks hblanks => exact ⟨[], [], parse_lastComma hblanks, by simp⟩
  | unclosed q inside closing hq hinside hclosing =>
    exact ⟨_, [], parse_unclosed hq hinside hclosing, by simp⟩

/-- A token in front of a line is put in front of its first alternative. -/
theorem parse_precedes {token : Token} {rest : Text} (h : token.Precedes rest) :
    parse (token.expr ++ rest) = (parse rest).modifyHead (token :: ·) := by
  cases h with
  | @literal text hne hplain hrest =>
    obtain ⟨first, others, hparse, hfirst⟩ := head?_parse hrest
    rw [Token.expr, parse_run hplain, hparse, List.modifyHead_cons, List.modifyHead_cons]
    congr 1
    unfold Alternative.consLiteral
    rw [if_neg (by simpa using hne)]
    split
    · next next tokens => exact absurd rfl (hfirst next)
    · rfl
  | parent => exact parse_marker rest
  | @quoted q inside hq hinside =>
    have hstring := parse_string hq hinside rest
    simpa [Token.expr] using hstring

/-! ## Lines with all quotes closed -/

/-- A quoted span is terminated if it ends with the quote that it starts with. -/
def Token.isTerminated : Token → Bool
  | .quoted opening _ closing => closing == opening
  | _ => true

/-- All quoted spans of the line are terminated. -/
def Line.isTerminated (line : Line) : Bool :=
  line.all fun alternative => alternative.all Token.isTerminated

theorem Token.Precedes.isTerminated {token : Token} {rest : Text} (h : token.Precedes rest) :
    token.isTerminated = true := by
  cases h with
  | literal => rfl
  | parent => rfl
  | quoted => simp [Token.isTerminated]

theorem isTerminated_modifyHead (token : Token) {line : Line} (hline : line ≠ []) :
    Line.isTerminated (line.modifyHead (token :: ·))
      = (token.isTerminated && line.isTerminated) := by
  obtain ⟨first, rest, rfl⟩ := List.exists_cons_of_ne_nil hline
  simp [Line.isTerminated, Bool.and_assoc]

theorem terminated_precedes {token : Token} {rest : Text} (h : token.Precedes rest) :
    Terminated (token.expr ++ rest) ↔ Terminated rest := by
  cases h with
  | literal _ hplain _ => exact terminated_append (isQuote_of_isPlain hplain) rest
  | parent => exact terminated_cons rfl rest
  | @quoted q inside hq hinside =>
    have hstring := terminated_quotation (Text.Quotation.intro hq hinside) rest
    simpa [Token.expr] using hstring

theorem isTerminated_unclosed {q : Char} (hq : Text.isQuote q = true) {inside closing : Text}
    (hinside : Text.Inside q inside) (hclosing : closing = [] ∨ closing = ['\\']) :
    Line.isTerminated (parse (q :: (inside ++ closing))) = false := by
  have hne : closing ≠ [q] := by
    rcases hclosing with rfl | rfl
    · exact nofun
    · simpa using (Text.isQuote_backslash hq).symm
  rw [parse_unclosed hq hinside hclosing]
  simpa [Line.isTerminated, Token.isTerminated] using hne

/-- The quotes of a line are closed exactly if its quoted spans are terminated. -/
theorem terminated_iff (t : Text) : Terminated t ↔ Line.isTerminated (parse t) = true := by
  induction t using line_induction with
  | nil => simp [terminated_nil, parse_nil, Line.isTerminated]
  | token token rest htoken ih =>
    rw [terminated_precedes htoken, parse_precedes htoken,
      isTerminated_modifyHead token (parse_ne_nil rest), htoken.isTerminated, Bool.true_and]
    exact ih
  | comma blanks rest hblanks hrest ih =>
    have hskip := terminated_append (fun c hc => (separator_plain hblanks c hc).1) rest
    rw [List.cons_append] at hskip
    rw [hskip, parse_comma hblanks hrest]
    exact ih
  | lastComma blanks hblanks =>
    have hskip := terminated_append (fun c hc => (separator_plain hblanks c hc).1) []
    rw [List.append_nil] at hskip
    rw [hskip, parse_lastComma hblanks]
    simp [terminated_nil, Line.isTerminated]
  | unclosed q inside closing hq hinside hclosing =>
    rw [isTerminated_unclosed hq hinside hclosing]
    refine iff_of_false (fun h => ?_) Bool.false_ne_true
    -- the quote would have to start a complete string
    rcases Text.quoted_cases hq (inside ++ closing) with ⟨_, _, _, _, hbody⟩ | ⟨-, -, hstarts⟩
    · rw [Text.body_unclosed hinside hclosing] at hbody
      rcases hclosing with rfl | rfl
      · cases hbody
      · exact Text.isQuote_backslash hq (List.cons.inj (Prod.mk.inj hbody).2).1.symm
    · exact hstarts (h q _ (Text.Reached.here _) hq)

end Selector

end NestedSheet
