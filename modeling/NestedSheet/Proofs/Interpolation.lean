import Mathlib.Data.List.Forall2
import NestedSheet.Proofs.Passes
import NestedSheet.Proofs.References
import NestedSheet.Proofs.Segments

/-!
# Interpolating selectors

A line is interpolated before it is read as selectors.  The two go by scanners of their
own, which agree on where the strings of a line are if every quote in it is closed, and
a reference never goes beyond the plain text that it starts in.  So if the values that
are put into the line are plain texts that do not start with a blank, the line could as
well be read first: its markers, its strings and its commas stay where they are, and
each plain text is interpolated by itself.

Main results:

* `reference_mem_ofText_iff` — the pieces of a text tell what it refers to.
* `ofText_precedes` — the pieces of a line are those of its tokens.
* `map_parse_interpolate` — reading after interpolating is interpolating after reading.
* `parse_interpolate` — the same for a line and for each of its plain texts.
-/

namespace NestedSheet

/-! ## Steps for each element -/

/-- The results of a step that is taken for each element, in their order. -/
theorem mapM_eq_ok_iff {ε α β : Type} {f : α → Except ε β} {xs : List α} {ys : List β} :
    xs.mapM f = .ok ys ↔ List.Forall₂ (fun x y => f x = .ok y) xs ys := by
  induction xs generalizing ys with
  | nil =>
    rw [List.mapM_nil, List.forall₂_nil_left_iff]
    exact ⟨fun h => (Except.ok.inj h).symm, fun h => congrArg _ h.symm⟩
  | cons x xs ih =>
    rw [List.mapM_cons, List.forall₂_cons_left_iff]
    constructor
    · intro h
      obtain ⟨y, hy, h⟩ := steps_eq_ok.1 h
      obtain ⟨ys', hys, h⟩ := steps_eq_ok.1 h
      exact ⟨y, ys', hy, ih.1 hys, (Except.ok.inj h).symm⟩
    · rintro ⟨y, ys', hy, hys, rfl⟩
      exact steps_eq_ok.2 ⟨y, hy, steps_eq_ok.2 ⟨ys', ih.2 hys, rfl⟩⟩

/-- A step that is taken for each element succeeds exactly if it does for each of them. -/
theorem exists_mapM_eq_ok {ε α β : Type} {f : α → Except ε β} {xs : List α} :
    (∃ ys, xs.mapM f = .ok ys) ↔ ∀ x ∈ xs, ∃ y, f x = .ok y := by
  induction xs with
  | nil => exact ⟨fun _ => nofun, fun _ => ⟨[], rfl⟩⟩
  | cons x xs ih =>
    rw [List.forall_mem_cons, ← ih]
    constructor
    · rintro ⟨ys, h⟩
      rw [List.mapM_cons] at h
      obtain ⟨y, hy, h⟩ := steps_eq_ok.1 h
      obtain ⟨ys', hys, -⟩ := steps_eq_ok.1 h
      exact ⟨⟨y, hy⟩, ys', hys⟩
    · rintro ⟨⟨y, hy⟩, ys, hys⟩
      refine ⟨y :: ys, ?_⟩
      rw [List.mapM_cons]
      exact steps_eq_ok.2 ⟨y, hy, steps_eq_ok.2 ⟨ys, hys, rfl⟩⟩

/-! ## The pieces of texts put together -/

namespace Piece

theorem ofText_nil : ofText [] = [] := by
  rw [ofText]

theorem ofText_cons (c : Char) (cs : Text) :
    ofText (c :: cs) = (next c cs).1 :: ofText (next c cs).2 := by
  rw [ofText]

/-- The pieces of a text tell what it refers to. -/
theorem reference_mem_ofText_iff (t name : Text) :
    .reference name ∈ ofText t ↔ ∃ rest, RefersTo t name rest := by
  induction t using piece_induction with
  | nil => simp [ofText_nil, refersTo_nil]
  | cons c cs ih =>
    simp only [ofText_cons, List.mem_cons, refersTo_cons, exists_or]
    refine or_congr ⟨fun h => ⟨(next c cs).2, ?_⟩, ?_⟩ ih
    · rw [h]
    · rintro ⟨rest, h⟩
      rw [h]

theorem next_of_not_quote {c : Char} (hc : Text.isQuote c = false) (cs : Text) :
    next c cs = if c = '$' ∧ cs.takeWhile Text.isWord ≠ [] then
      (.reference (cs.takeWhile Text.isWord), cs.dropWhile Text.isWord)
    else (.verbatim [c], cs) := by
  rw [next, Text.completeSpan?_eq_none_iff.2 (Text.not_startsQuotation hc)]

theorem ofText_cons_verbatim {c : Char} (hc : Text.isQuote c = false) (hdollar : c ≠ '$')
    (cs : Text) : ofText (c :: cs) = .verbatim [c] :: ofText cs := by
  rw [ofText_cons, next_of_not_quote hc, if_neg fun h => hdollar h.1]

theorem ofText_quotation {span : Text} (hspan : Text.Quotation span) (rest : Text) :
    ofText (span ++ rest) = .verbatim span :: ofText rest := by
  have hfound := Text.completeSpan?_eq_some_iff.2 ⟨hspan, (rfl : span ++ rest = span ++ rest)⟩
  obtain ⟨q, inside, -, -, rfl⟩ := hspan.exists_cons
  rw [List.cons_append] at hfound ⊢
  rw [ofText_cons, next, hfound]

/-- A string is a single piece. -/
theorem ofText_span {span : Text} (hspan : Text.Quotation span) :
    ofText span = [.verbatim span] := by
  have hself := ofText_quotation hspan []
  rwa [List.append_nil, ofText_nil] at hself

/-- A run of characters ends where another one follows that does not belong to it. -/
theorem takeWhile_append_stop {p : Char → Bool} {rest : Text}
    (hrest : rest.head?.all (fun c => !p c) = true) (cs : Text) :
    (cs ++ rest).takeWhile p = cs.takeWhile p
      ∧ (cs ++ rest).dropWhile p = cs.dropWhile p ++ rest := by
  induction cs with
  | nil =>
    cases rest with
    | nil => exact ⟨rfl, rfl⟩
    | cons c rest =>
      have hc : p c = false := by simpa using hrest
      simp [hc]
  | cons c cs ih =>
    rw [List.cons_append]
    cases hc : p c with
    | true => simp [hc, ih]
    | false => simp [hc]

/-- Where no name can go on, the pieces of two texts put together are those of the one
and then those of the other. -/
theorem ofText_append {t rest : Text} (ht : ∀ c ∈ t, Text.isQuote c = false)
    (hrest : rest.head?.all (fun c => !Text.isWord c) = true) :
    ofText (t ++ rest) = ofText t ++ ofText rest := by
  induction t using piece_induction with
  | nil => rw [ofText_nil, List.nil_append, List.nil_append]
  | cons c cs ih =>
    obtain ⟨hc, hcs⟩ := List.forall_mem_cons.1 ht
    obtain ⟨htake, hdrop⟩ := takeWhile_append_stop hrest cs
    rw [List.cons_append, ofText_cons, ofText_cons, next_of_not_quote hc, next_of_not_quote hc,
      htake, hdrop]
    rw [next_of_not_quote hc] at ih
    split
    · next hname =>
      rw [if_pos hname] at ih
      rw [ih fun d hd => hcs d ((List.dropWhile_sublist _).subset hd)]
      rfl
    · next hname =>
      rw [if_neg hname] at ih
      rw [ih hcs]
      rfl

/-- Characters that are neither quotes nor dollar signs are pieces by themselves. -/
theorem ofText_verbatim_append {t : Text} (ht : ∀ c ∈ t, Text.isQuote c = false ∧ c ≠ '$')
    (rest : Text) : ofText (t ++ rest) = ofText t ++ ofText rest := by
  induction t with
  | nil => rw [ofText_nil, List.nil_append, List.nil_append]
  | cons c cs ih =>
    obtain ⟨⟨hquote, hdollar⟩, hcs⟩ := List.forall_mem_cons.1 ht
    rw [List.cons_append, ofText_cons_verbatim hquote hdollar, ofText_cons_verbatim hquote hdollar,
      ih hcs, List.cons_append]

end Piece

/-- Texts whose pieces are put together are interpolated one after the other. -/
theorem Environment.interpolate_append (env : Environment) {t rest : Text}
    (h : Piece.ofText (t ++ rest) = Piece.ofText t ++ Piece.ofText rest) :
    env.interpolate (t ++ rest) = (do
      let first ← env.interpolate t
      let second ← env.interpolate rest
      pure (first ++ second)) := by
  simp only [interpolate, h, List.mapM_append]
  cases (Piece.ofText t).mapM (Piece.eval env) with
  | error name => rfl
  | ok first =>
    cases (Piece.ofText rest).mapM (Piece.eval env) with
    | error name => rfl
    | ok second => exact congrArg Except.ok List.flatten_append

namespace Selector

/-! ## Tokens and lines -/

/-- The token with its plain text interpolated; markers and quoted spans stay as they
are. -/
def Token.interpolate (env : Environment) : Token → Except Text Token
  | .literal text => (env.interpolate text).map .literal
  | token => .ok token

/-- The line with each of its plain texts interpolated. -/
def Line.interpolate (env : Environment) (line : Line) : Except Text Line :=
  line.mapM fun alternative => alternative.mapM (Token.interpolate env)

theorem Line.interpolate_cons_nil (env : Environment) (line : Line) :
    Line.interpolate env ([] :: line) = (line.interpolate env).map ([] :: ·) := by
  rw [Line.interpolate, List.mapM_cons]
  cases h : Line.interpolate env line <;> (rw [Line.interpolate] at h; rw [h]; rfl)

/-- A token in front of a line is interpolated before the line. -/
theorem Line.interpolate_modifyHead (env : Environment) (token : Token) {line : Line}
    (hline : line ≠ []) : Line.interpolate env (line.modifyHead (token :: ·)) = (do
      let token ← token.interpolate env
      let line ← line.interpolate env
      pure (line.modifyHead (token :: ·))) := by
  obtain ⟨first, rest, rfl⟩ := List.exists_cons_of_ne_nil hline
  simp only [Line.interpolate, List.modifyHead_cons, List.mapM_cons]
  cases token.interpolate env with
  | error name => rfl
  | ok token =>
    cases first.mapM (Token.interpolate env) with
    | error name => rfl
    | ok first =>
      cases rest.mapM fun alternative => alternative.mapM (Token.interpolate env) with
      | error name => rfl
      | ok rest => rfl

theorem isPlain_of_isWord {c : Char} (h : Text.isWord c = true) : isPlain c = true := by
  have hnone : [parentMark, ','].all (fun d => !Text.isWord d) = true := by decide +kernel
  have hne : ∀ d ∈ [parentMark, ','], c ≠ d := by
    rintro d hd rfl
    have hother := List.all_eq_true.1 hnone c hd
    rw [h] at hother
    cases hother
  exact isPlain_iff.2 ⟨hne parentMark (by simp), hne ',' (by simp), (isQuote_of_isWord h).1⟩

/-- The pieces of a line are those of the token in front and those of the rest. -/
theorem ofText_precedes {token : Token} {rest : Text} (h : token.Precedes rest) :
    Piece.ofText (token.expr ++ rest) = Piece.ofText token.expr ++ Piece.ofText rest := by
  cases h with
  | literal _ hplain hrest =>
    refine Piece.ofText_append (isQuote_of_isPlain hplain) ?_
    -- a name does not go on behind a whole run of plain characters
    cases rest with
    | nil => rfl
    | cons c cs =>
      have hc : isPlain c = false := by simpa using hrest
      have hword : Text.isWord c = false := by
        by_contra htrue
        rw [Bool.not_eq_false] at htrue
        rw [isPlain_of_isWord htrue] at hc
        cases hc
      simp [hword]
  | parent =>
    rw [Token.expr, List.singleton_append, Piece.ofText_cons_verbatim rfl (by decide),
      Piece.ofText_cons_verbatim rfl (by decide), Piece.ofText_nil]
    rfl
  | @quoted q inside hq hinside =>
    have hspan := Text.Quotation.intro hq hinside
    have hexpr : Token.expr (.quoted [q] inside [q]) = q :: (inside ++ [q]) := rfl
    rw [hexpr, Piece.ofText_quotation hspan, Piece.ofText_span hspan]
    rfl

/-- The token in front of a line is interpolated by itself. -/
theorem interpolate_precedes (env : Environment) {token : Token} {rest : Text}
    (h : token.Precedes rest) : env.interpolate (token.expr ++ rest) = (do
      let token ← token.interpolate env
      let u ← env.interpolate rest
      pure (token.expr ++ u)) := by
  have hself : env.interpolate token.expr = (token.interpolate env).map Token.expr := by
    cases h with
    | @literal text _ _ _ =>
      rw [Token.expr, Token.interpolate]
      cases env.interpolate text <;> rfl
    | parent => exact interpolate_without_dollar env (by decide)
    | @quoted q inside hq hinside =>
      show env.interpolate (q :: (inside ++ [q])) = _
      rw [Environment.interpolate, Piece.ofText_span (Text.Quotation.intro hq hinside)]
      exact congrArg Except.ok (List.append_nil _)
  rw [env.interpolate_append (ofText_precedes h), hself]
  cases token.interpolate env <;> rfl

/-! ## Values in a line -/

/-- The text is plain, not empty and does not start with a blank. -/
def isInert (t : Text) : Bool :=
  startsInk t && t.all isPlain

/-- The values that are put into the text are inert. -/
def InertValues (env : Environment) (t : Text) : Prop :=
  ∀ name value, .reference name ∈ Piece.ofText t → env.get? name = some value →
    isInert value.toText = true

section Values

variable {env : Environment}

theorem InertValues.of_append {t rest : Text} (hvalues : InertValues env (t ++ rest))
    (h : Piece.ofText (t ++ rest) = Piece.ofText t ++ Piece.ofText rest) :
    InertValues env t ∧ InertValues env rest := by
  rw [InertValues, h] at hvalues
  constructor
  · exact fun name value hname => hvalues name value (List.mem_append_left _ hname)
  · exact fun name value hname => hvalues name value (List.mem_append_right _ hname)

theorem InertValues.eval {t name value : Text} (hvalues : InertValues env t)
    (hname : .reference name ∈ Piece.ofText t)
    (h : (Piece.reference name).eval env = .ok value) : isInert value = true := by
  rw [Piece.eval] at h
  split at h
  · next found hfound =>
    cases h
    exact hvalues name found hname hfound
  · cases h

/-- The first piece of a text starts with the character that the text starts with, or it
is the value of a variable. -/
theorem eval_next {c : Char} {cs first : Text} (hvalues : InertValues env (c :: cs))
    (h : (Piece.next c cs).1.eval env = .ok first) :
    (∃ text, first = c :: text) ∨ c = '$' ∧ isInert first = true := by
  have hmem : (Piece.next c cs).1 ∈ Piece.ofText (c :: cs) := by
    rw [Piece.ofText_cons]
    exact List.mem_cons_self
  rw [Piece.next] at h hmem
  split at h
  · next span rest hspan =>
    cases h
    obtain ⟨hquotation, htext⟩ := Text.completeSpan?_eq_some_iff.1 hspan
    obtain ⟨q, inside, -, -, rfl⟩ := hquotation.exists_cons
    exact Or.inl ⟨inside ++ [q], by rw [(List.cons.inj htext).1]⟩
  · next hspan =>
    rw [hspan] at hmem
    split at h
    · next hname =>
      simp only [if_pos hname] at hmem
      exact Or.inr ⟨hname.1, hvalues.eval hmem h⟩
    · cases h
      exact Or.inl ⟨[], rfl⟩

/-- What a text becomes starts with the character that the text starts with, or with the
value of a variable. -/
theorem interpolate_head {c : Char} {cs u : Text} (hvalues : InertValues env (c :: cs))
    (h : env.interpolate (c :: cs) = .ok u) :
    (∃ text, u = c :: text) ∨ c = '$' ∧ startsInk u = true := by
  rw [Environment.interpolate_cons] at h
  obtain ⟨first, hfirst, h⟩ := steps_eq_ok.1 h
  obtain ⟨rest, -, h⟩ := steps_eq_ok.1 h
  cases h
  rcases eval_next hvalues hfirst with ⟨text, rfl⟩ | ⟨hc, hinert⟩
  · exact Or.inl ⟨text ++ rest, rfl⟩
  · rw [isInert, Bool.and_eq_true] at hinert
    exact Or.inr ⟨hc, startsInk_append hinert.1 rest⟩

theorem startsInk_interpolate {t u : Text} (hvalues : InertValues env t)
    (ht : startsInk t = true) (h : env.interpolate t = .ok u) : startsInk u = true := by
  cases t with
  | nil => cases ht
  | cons c cs =>
    rcases interpolate_head hvalues h with ⟨text, rfl⟩ | ⟨-, hu⟩
    · exact ht
    · exact hu

/-- A line that does not start with a plain character does not start with one once it is
interpolated. -/
theorem not_isPlain_interpolate {t u : Text} (hvalues : InertValues env t)
    (ht : t.head?.all (fun c => !isPlain c) = true) (h : env.interpolate t = .ok u) :
    u.head?.all (fun c => !isPlain c) = true := by
  cases t with
  | nil =>
    rw [Environment.interpolate_nil] at h
    cases h
    rfl
  | cons c cs =>
    rcases interpolate_head hvalues h with ⟨text, rfl⟩ | ⟨rfl, -⟩
    · exact ht
    · cases ht

/-- Plain text stays plain. -/
theorem isPlain_interpolate {t u : Text} (hvalues : InertValues env t)
    (ht : ∀ c ∈ t, isPlain c = true) (h : env.interpolate t = .ok u) :
    ∀ c ∈ u, isPlain c = true := by
  induction t using piece_induction generalizing u with
  | nil =>
    rw [Environment.interpolate_nil] at h
    cases h
    exact nofun
  | cons c cs ih =>
    obtain ⟨hc, hcs⟩ := List.forall_mem_cons.1 ht
    have hnext := Piece.next_of_not_quote (isPlain_iff.1 hc).2.2 cs
    have hpieces := Piece.ofText_cons c cs
    rw [Environment.interpolate_cons] at h
    obtain ⟨first, hfirst, h⟩ := steps_eq_ok.1 h
    obtain ⟨rest, hrest, h⟩ := steps_eq_ok.1 h
    cases h
    have hbehind : InertValues env (Piece.next c cs).2 := by
      intro name value hname
      refine hvalues name value ?_
      rw [hpieces]
      exact List.mem_cons_of_mem _ hname
    refine List.forall_mem_append.2 ⟨?_, ih hbehind ?_ hrest⟩
    · -- the first piece is a plain character or the value of a variable
      by_cases hname : c = '$' ∧ cs.takeWhile Text.isWord ≠ []
      · rw [hnext, if_pos hname] at hfirst hpieces
        have hinert := hvalues.eval (by rw [hpieces]; exact List.mem_cons_self) hfirst
        rw [isInert, Bool.and_eq_true] at hinert
        exact List.all_eq_true.1 hinert.2
      · rw [hnext, if_neg hname] at hfirst
        cases hfirst
        exact List.forall_mem_singleton.2 hc
    · rw [hnext]
      split
      · exact fun d hd => hcs d ((List.dropWhile_sublist _).subset hd)
      · exact hcs

/-- A token that stands in front of a line does so once both are interpolated. -/
theorem Token.Precedes.interpolate {token token' : Token} {rest u : Text}
    (h : token.Precedes rest) (hvalues : InertValues env (token.expr ++ rest))
    (htoken : token.interpolate env = .ok token') (hu : env.interpolate rest = .ok u) :
    token'.Precedes u := by
  obtain ⟨hself, hbehind⟩ := hvalues.of_append (ofText_precedes h)
  cases h with
  | @literal text hne hplain hrest =>
    rw [Token.interpolate] at htoken
    cases htext : env.interpolate text with
    | error name =>
      rw [htext] at htoken
      cases htoken
    | ok text' =>
      rw [htext] at htoken
      cases htoken
      refine Token.Precedes.literal ?_ (isPlain_interpolate hself hplain htext)
        (not_isPlain_interpolate hbehind hrest hu)
      -- the values are not empty, so that the text is not either
      obtain ⟨c, cs, rfl⟩ := List.exists_cons_of_ne_nil hne
      rintro rfl
      rcases interpolate_head hself htext with ⟨text, heq⟩ | ⟨-, hink⟩
      · cases heq
      · cases hink
  | parent =>
    cases htoken
    exact Token.Precedes.parent
  | quoted hq hinside =>
    cases htoken
    exact Token.Precedes.quoted hq hinside

/-! ## Reading what is interpolated -/

theorem ofText_separator {blanks : Text} (hblanks : ∀ c ∈ blanks, Text.isBlank c = true)
    (rest : Text) :
    Piece.ofText (',' :: blanks ++ rest) = Piece.ofText (',' :: blanks) ++ Piece.ofText rest :=
  Piece.ofText_verbatim_append (separator_plain hblanks) rest

/-- A comma and the blanks behind it stay as they are. -/
theorem interpolate_separator (env : Environment) {blanks : Text}
    (hblanks : ∀ c ∈ blanks, Text.isBlank c = true) (rest : Text) :
    env.interpolate (',' :: blanks ++ rest) = (env.interpolate rest).map (',' :: blanks ++ ·) := by
  have hdollar : '$' ∉ ',' :: blanks := fun hmem => (separator_plain hblanks _ hmem).2 rfl
  rw [env.interpolate_append (ofText_separator hblanks rest),
    interpolate_without_dollar env hdollar]
  rfl

/-- Reading a line after interpolating it is interpolating its plain texts after reading
it, if all its quotes are closed and the values are inert. -/
theorem map_parse_interpolate {t : Text} (hquotes : (parse t).isTerminated = true)
    (hvalues : InertValues env t) :
    (env.interpolate t).map parse = (parse t).interpolate env := by
  induction t using line_induction with
  | nil =>
    rw [Environment.interpolate_nil, parse_nil]
    exact congrArg Except.ok parse_nil
  | token token rest htoken ih =>
    obtain ⟨-, hbehind⟩ := hvalues.of_append (ofText_precedes htoken)
    rw [parse_precedes htoken, isTerminated_modifyHead token (parse_ne_nil rest),
      Bool.and_eq_true] at hquotes
    rw [parse_precedes htoken, Line.interpolate_modifyHead env token (parse_ne_nil rest),
      ← ih hquotes.2 hbehind, interpolate_precedes env htoken]
    cases htoken' : token.interpolate env with
    | error name => rfl
    | ok token' =>
      cases hu : env.interpolate rest with
      | error name => rfl
      | ok u =>
        -- the token is still in front of the line once both are interpolated
        exact congrArg Except.ok (parse_precedes (htoken.interpolate hvalues htoken' hu))
  | comma blanks rest hblanks hrest ih =>
    obtain ⟨-, hbehind⟩ := hvalues.of_append (ofText_separator hblanks rest)
    rw [parse_comma hblanks hrest] at hquotes
    rw [parse_comma hblanks hrest, Line.interpolate_cons_nil, ← ih hquotes hbehind,
      ← List.cons_append, interpolate_separator env hblanks]
    cases hu : env.interpolate rest with
    | error name => rfl
    | ok u =>
      exact congrArg Except.ok (parse_comma hblanks (startsInk_interpolate hbehind hrest hu))
  | lastComma blanks hblanks =>
    have hself := interpolate_separator env hblanks []
    rw [List.append_nil, Environment.interpolate_nil] at hself
    rw [hself, parse_lastComma hblanks]
    show Except.ok (parse (',' :: blanks ++ [])) = _
    rw [List.append_nil, parse_lastComma hblanks]
    rfl
  | unclosed q inside closing hq hinside hclosing =>
    rw [isTerminated_unclosed hq hinside hclosing] at hquotes
    cases hquotes

end Values

theorem Token.exists_interpolate {env : Environment} {token : Token} :
    (∃ token', token.interpolate env = .ok token') ↔
      ∀ text, token = .literal text → ∃ u, env.interpolate text = .ok u := by
  cases token with
  | literal text =>
    rw [Token.interpolate]
    constructor
    · rintro ⟨token', h⟩ text' heq
      cases heq
      cases hu : env.interpolate text with
      | error name =>
        rw [hu] at h
        cases h
      | ok u => exact ⟨u, rfl⟩
    · intro h
      obtain ⟨u, hu⟩ := h text rfl
      exact ⟨.literal u, by rw [hu]; rfl⟩
  | parent => exact ⟨fun _ => nofun, fun _ => ⟨_, rfl⟩⟩
  | quoted opening content closing => exact ⟨fun _ => nofun, fun _ => ⟨_, rfl⟩⟩

/-- **Interpolating and reading selectors can be swapped.**  Let all quoted spans of a
line be terminated, and let the values of the variables that it refers to outside of its
strings be plain texts that are not empty and do not start with a blank.  Then the line
can be interpolated exactly if each of its plain texts can, and what comes out is read as
the same alternatives, with the same markers and quoted spans at the same places and with
each plain text interpolated. -/
theorem parse_interpolate {env : Environment} {t : Text}
    (hquotes : (parse t).isTerminated = true)
    (hvalues : ∀ name rest value, RefersTo t name rest → env.get? name = some value →
      isInert value.toText = true) :
    ((∃ u, env.interpolate t = .ok u) ↔ ∀ alternative ∈ parse t, ∀ text,
        .literal text ∈ alternative → ∃ u, env.interpolate text = .ok u)
    ∧ ∀ u, env.interpolate t = .ok u →
        List.Forall₂ (List.Forall₂ fun token token' => token.interpolate env = .ok token')
          (parse t) (parse u) := by
  have hinert : InertValues env t := by
    intro name value hname hvalue
    obtain ⟨rest, hrefers⟩ := (Piece.reference_mem_ofText_iff t name).1 hname
    exact hvalues name rest value hrefers hvalue
  have hread := map_parse_interpolate hquotes hinert
  constructor
  · have hboth : (∃ u, env.interpolate t = .ok u)
        ↔ ∃ line, (parse t).interpolate env = .ok line := by
      rw [← hread]
      cases env.interpolate t with
      | error name => exact iff_of_false nofun nofun
      | ok u => exact iff_of_true ⟨u, rfl⟩ ⟨parse u, rfl⟩
    rw [hboth, Line.interpolate, exists_mapM_eq_ok]
    refine forall₂_congr fun alternative _ => ?_
    rw [exists_mapM_eq_ok]
    simp only [Token.exists_interpolate]
    exact ⟨fun h text htext => h _ htext text rfl,
      fun h token htoken text heq => h text (heq ▸ htoken)⟩
  · intro u hu
    rw [hu] at hread
    refine (mapM_eq_ok_iff.1 hread.symm).imp fun alternative other h => ?_
    exact mapM_eq_ok_iff.1 h

/-- A reference before a string and one behind a comma, with a string that hides a third
one, and a marker between the two. -/
theorem parse_interpolate_string :
    let env : Environment := { entries := [(['x'], .text ['b']), (['y'], .int 3)] }
    let string : Text := ['"', '$', 'z', ',', '&', '"']
    let t : Text := 'a' :: '$' :: 'x' :: string ++ ['&', '$', 'y', ',', ' ', '$', 'x']
    let u : Text := 'a' :: 'b' :: string ++ ['&', '3', ',', ' ', 'b']
    (parse t).isTerminated = true ∧ env.interpolate t = .ok u
      ∧ List.Forall₂ (List.Forall₂ fun token token' => token.interpolate env = .ok token')
        (parse t) (parse u) := by
  intro env string t u
  have hquotes : (parse t).isTerminated = true := by decide +kernel
  have hu : env.interpolate t = .ok u := by decide +kernel
  have hvalues : ∀ name value, env.get? name = some value → isInert value.toText = true := by
    intro name value h
    simp only [env, Environment.get?, List.lookup_cons, List.lookup_nil] at h
    split at h
    · cases h
      rfl
    · split at h
      · cases h
        rfl
      · cases h
  obtain ⟨-, hread⟩ := parse_interpolate hquotes fun name _ value _ => hvalues name value
  exact ⟨hquotes, hu, hread u hu⟩

end Selector

end NestedSheet
