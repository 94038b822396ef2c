import Mathlib.Data.List.Chain
import Mathlib.Data.List.Induction
import NestedSheet.Proofs.Lossless

/-!
# The normal form of an alternative

Merging gives an alternative a form in which no plain text is empty and no two plain texts
stand next to each other.  The other tokens stay as they are, in their order, and so does the
plain text before, between and behind them, whatever it was cut into.  Nothing else of an
alternative goes into its normal form (`merge_eq_interleave`), so that two alternatives have
the same one just when these tokens and these texts are the same.

A piece of an alternative can be merged before it is put together with others, and merging can
be done from the left: token after token, with an eye on the last token that is there already
(`merge_eq_foldl`).

Main results:

* `isMerged_merge`, `merge_eq_self` — the form, and that what has it stays as it is.
* `merge_append_merge` — the pieces may be merged first.
* `merge_eq_iff` — when two alternatives have the same normal form.
* `merge_normal_form` — all of this together.
-/

namespace NestedSheet.Selector.Alternative

/-! ## The form -/

/-- No plain text is empty, and no two of them stand next to each other. -/
structure IsMerged (tokens : Alternative) : Prop where
  filled : Token.literal [] ∉ tokens
  apart : tokens.IsChain fun token next => token.isLiteral = false ∨ next.isLiteral = false

theorem isMerged_nil : IsMerged [] :=
  ⟨List.not_mem_nil, List.IsChain.nil⟩

theorem isMerged_cons_iff {token : Token} {tokens : Alternative} :
    IsMerged (token :: tokens) ↔ token ≠ .literal [] ∧ IsMerged tokens
      ∧ ∀ next ∈ tokens.head?, token.isLiteral = false ∨ next.isLiteral = false := by
  constructor
  · intro h
    obtain ⟨hnext, hapart⟩ := List.isChain_cons.1 h.apart
    have hfilled := h.filled
    rw [List.mem_cons, not_or] at hfilled
    exact ⟨Ne.symm hfilled.1, ⟨hfilled.2, hapart⟩, hnext⟩
  · rintro ⟨htoken, htokens, hnext⟩
    refine ⟨?_, List.isChain_cons.2 ⟨hnext, htokens.apart⟩⟩
    rw [List.mem_cons, not_or]
    exact ⟨Ne.symm htoken, htokens.filled⟩

/-- The form looks at a new last token and at the one before it only. -/
theorem isMerged_concat_iff {token : Token} {tokens : Alternative} :
    IsMerged (tokens ++ [token]) ↔ IsMerged tokens ∧ token ≠ .literal []
      ∧ ∀ last ∈ tokens.getLast?, last.isLiteral = false ∨ token.isLiteral = false := by
  constructor
  · intro h
    -- over the border between two lists a chain asks for the two tokens there only
    obtain ⟨hapart, -, hlast⟩ := List.isChain_append.1 h.apart
    have hfilled := h.filled
    rw [List.mem_append, not_or, List.mem_singleton] at hfilled
    exact ⟨⟨hfilled.1, hapart⟩, Ne.symm hfilled.2, fun last hmem => hlast last hmem token rfl⟩
  · rintro ⟨htokens, htoken, hlast⟩
    refine ⟨?_, List.isChain_append.2 ⟨htokens.apart, List.IsChain.singleton token, ?_⟩⟩
    · rw [List.mem_append, not_or, List.mem_singleton]
      exact ⟨htokens.filled, Ne.symm htoken⟩
    · intro last hmem next hnext
      obtain rfl : token = next := Option.some.inj hnext
      exact hlast last hmem

/-! ## Plain text at the front -/

@[simp] theorem consLiteral_empty (tokens : Alternative) : consLiteral [] tokens = tokens := rfl

theorem consLiteral_literal {t : Text} (ht : t ≠ []) (u : Text) (tokens : Alternative) :
    consLiteral t (.literal u :: tokens) = .literal (t ++ u) :: tokens := by
  rw [consLiteral, if_neg (by rwa [List.isEmpty_iff])]

/-- Plain text that no plain text follows is a token of its own. -/
theorem consLiteral_apart {t : Text} (ht : t ≠ []) {tokens : Alternative}
    (htokens : ∀ next ∈ tokens.head?, next.isLiteral = false) :
    consLiteral t tokens = .literal t :: tokens := by
  unfold consLiteral
  rw [if_neg (by rwa [List.isEmpty_iff])]
  split
  · next u rest => exact absurd (htokens _ rfl) Bool.true_eq_false.mp
  · rfl

/-- Plain text in front of tokens is empty, joins plain text there, or does neither. -/
theorem consLiteral_cases (t : Text) (tokens : Alternative) :
    t = [] ∨ t ≠ [] ∧ (∃ u rest, tokens = .literal u :: rest)
      ∨ t ≠ [] ∧ ∀ next ∈ tokens.head?, next.isLiteral = false := by
  rcases eq_or_ne t [] with ht | ht
  · exact Or.inl ht
  refine Or.inr ?_
  cases tokens with
  | nil => exact Or.inr ⟨ht, fun next hnext => by cases hnext⟩
  | cons next rest =>
    rcases next.eq_literal_or with ⟨u, rfl⟩ | hnext
    · exact Or.inl ⟨ht, u, rest, rfl⟩
    · refine Or.inr ⟨ht, fun other hother => ?_⟩
      obtain rfl : next = other := Option.some.inj hother
      exact hnext

/-- Two plain texts at the front are one. -/
theorem consLiteral_append (t u : Text) (tokens : Alternative) :
    consLiteral (t ++ u) tokens = consLiteral t (consLiteral u tokens) := by
  rcases eq_or_ne t [] with rfl | ht
  · rfl
  have htu : t ++ u ≠ [] := List.append_ne_nil_of_left_ne_nil ht u
  -- what `u` does in front of the tokens decides what `t` finds there
  rcases consLiteral_cases u tokens with rfl | ⟨hu, v, rest, rfl⟩ | ⟨hu, htokens⟩
  · rw [List.append_nil, consLiteral_empty]
  · rw [consLiteral_literal htu, consLiteral_literal hu, consLiteral_literal ht, List.append_assoc]
  · rw [consLiteral_apart htu htokens, consLiteral_apart hu htokens, consLiteral_literal ht]

theorem isMerged_consLiteral (t : Text) {tokens : Alternative} (h : IsMerged tokens) :
    IsMerged (consLiteral t tokens) := by
  rcases consLiteral_cases t tokens with rfl | ⟨ht, u, rest, rfl⟩ | ⟨ht, htokens⟩
  · exact h
  · -- what may follow the text that was there may follow the longer one
    obtain ⟨-, hrest, hnext⟩ := isMerged_cons_iff.1 h
    rw [consLiteral_literal ht]
    exact isMerged_cons_iff.2 ⟨by simp [ht], hrest, hnext⟩
  · rw [consLiteral_apart ht htokens]
    exact isMerged_cons_iff.2 ⟨by simp [ht], h, fun next hnext => Or.inr (htokens next hnext)⟩

/-! ## Merging -/

theorem merge_cons {token : Token} (h : token.isLiteral = false) (tokens : Alternative) :
    merge (token :: tokens) = token :: merge tokens := by
  cases token with
  | literal t => cases h
  | parent => rfl
  | quoted _ _ _ => rfl

/-- Merging gives the normal form. -/
theorem isMerged_merge (tokens : Alternative) : IsMerged (merge tokens) := by
  induction tokens with
  | nil => exact isMerged_nil
  | cons token tokens ih =>
    rcases token.eq_literal_or with ⟨t, rfl⟩ | htoken
    · exact isMerged_consLiteral t ih
    · rw [merge_cons htoken]
      refine isMerged_cons_iff.2 ⟨?_, ih, fun _ _ => Or.inl htoken⟩
      rintro rfl
      cases htoken

/-- What is in normal form stays as it is. -/
theorem merge_eq_self {tokens : Alternative} (h : IsMerged tokens) : merge tokens = tokens := by
  induction tokens with
  | nil => rfl
  | cons token tokens ih =>
    obtain ⟨hfilled, htokens, hnext⟩ := isMerged_cons_iff.1 h
    rcases token.eq_literal_or with ⟨t, rfl⟩ | htoken
    · -- the text is not empty and joins nothing, so it is put in front as it is
      have ht : t ≠ [] := fun hnil => hfilled (congrArg Token.literal hnil)
      have hapart : ∀ next ∈ tokens.head?, next.isLiteral = false := fun next hmem =>
        (hnext next hmem).resolve_left Bool.true_eq_false.mp
      rw [merge, ih htokens, consLiteral_apart ht hapart]
    · rw [merge_cons htoken, ih htokens]

theorem merge_cons_congr (token : Token) {tokens tokens' : Alternative}
    (h : merge tokens = merge tokens') : merge (token :: tokens) = merge (token :: tokens') := by
  rcases token.eq_literal_or with ⟨t, rfl⟩ | htoken
  · rw [merge, merge, h]
  · rw [merge_cons htoken, merge_cons htoken, h]

theorem merge_append_congr (tokens : Alternative) {more more' : Alternative}
    (h : merge more = merge more') : merge (tokens ++ more) = merge (tokens ++ more') := by
  induction tokens with
  | nil => exact h
  | cons token tokens ih => exact merge_cons_congr token ih

/-- Plain text can be put at the front before merging or after it. -/
theorem merge_consLiteral_append (t : Text) (tokens more : Alternative) :
    merge (consLiteral t tokens ++ more) = consLiteral t (merge (tokens ++ more)) := by
  rcases consLiteral_cases t tokens with rfl | ⟨ht, u, rest, rfl⟩ | ⟨ht, htokens⟩
  · rfl
  · rw [consLiteral_literal ht, List.cons_append, merge, consLiteral_append, List.cons_append,
      merge]
  · rw [consLiteral_apart ht htokens, List.cons_append, merge]

theorem merge_merge_append (tokens more : Alternative) :
    merge (merge tokens ++ more) = merge (tokens ++ more) := by
  -- on the first piece alone, since its last text may still join the second piece
  induction tokens with
  | nil => rfl
  | cons token tokens ih =>
    rcases token.eq_literal_or with ⟨t, rfl⟩ | htoken
    · rw [merge, merge_consLiteral_append, ih, List.cons_append, merge]
    · rw [merge_cons htoken]
      exact merge_cons_congr token ih

/-- The pieces of an alternative may be merged first. -/
theorem merge_append_merge (tokens more : Alternative) :
    merge (merge tokens ++ merge more) = merge (tokens ++ more) := by
  rw [merge_merge_append]
  exact merge_append_congr tokens (merge_eq_self (isMerged_merge more))

/-! ## Merging from the left -/

/-- One more token behind tokens in normal form: plain text joins the last token, if that is
plain text too, and empty plain text is dropped. -/
def absorb (done : Alternative) : Token → Alternative
  | .literal t =>
    if t.isEmpty then done
    else match done.getLast? with
      | some (.literal last) => done.dropLast ++ [.literal (last ++ t)]
      | _ => done ++ [.literal t]
  | token => done ++ [token]

theorem absorb_of_not_literal {token : Token} (h : token.isLiteral = false) (done : Alternative) :
    absorb done token = done ++ [token] := by
  cases token with
  | literal t => cases h
  | parent => rfl
  | quoted _ _ _ => rfl

/-- What one more token does to tokens in normal form. -/
theorem absorb_eq_merge {done : Alternative} (h : IsMerged done) (token : Token) :
    absorb done token = merge (done ++ [token]) := by
  -- a token that is not empty and joins nothing leaves the tokens in normal form
  have hconcat : token ≠ .literal [] →
      (∀ last ∈ done.getLast?, last.isLiteral = false ∨ token.isLiteral = false) →
      done ++ [token] = merge (done ++ [token]) := fun hfilled hlast =>
    (merge_eq_self (isMerged_concat_iff.2 ⟨h, hfilled, hlast⟩)).symm
  rcases token.eq_literal_or with ⟨t, rfl⟩ | htoken
  · rcases eq_or_ne t [] with rfl | ht
    · have hdropped : merge (done ++ [.literal []]) = merge (done ++ []) :=
        merge_append_congr done rfl
      rw [hdropped, List.append_nil, merge_eq_self h]
      rfl
    · rw [absorb, if_neg (by rwa [List.isEmpty_iff])]
      split
      · next last hlast =>
        -- the last text and the new one are one text, on both sides
        obtain ⟨before, rfl⟩ := List.getLast?_eq_some_iff.1 hlast
        obtain ⟨hbefore, -, hkinds⟩ := isMerged_concat_iff.1 h
        have hjoined : merge [.literal last, .literal t] = merge [.literal (last ++ t)] :=
          (consLiteral_append last t []).symm
        rw [List.dropLast_concat, List.append_assoc, List.singleton_append,
          merge_append_congr before hjoined]
        have hdone : IsMerged (before ++ [.literal (last ++ t)]) :=
          isMerged_concat_iff.2 ⟨hbefore, by simp [ht], hkinds⟩
        exact (merge_eq_self hdone).symm
      · next hlast =>
        refine hconcat (fun heq => ht (Token.literal.inj heq)) fun last hmem => Or.inl ?_
        rcases last.eq_literal_or with ⟨u, rfl⟩ | hkind
        · exact absurd hmem (hlast u)
        · exact hkind
  · rw [absorb_of_not_literal htoken]
    refine hconcat ?_ fun _ _ => Or.inr htoken
    rintro rfl
    cases htoken

/-- Merging from the left gives the normal form. -/
theorem merge_eq_foldl (tokens : Alternative) : merge tokens = tokens.foldl absorb [] := by
  induction tokens using List.reverseRecOn with
  | nil => rfl
  | append_singleton tokens token ih =>
    -- the tokens so far are in normal form, which is what a step needs
    rw [List.foldl_concat, ← ih, absorb_eq_merge (isMerged_merge tokens), merge_merge_append]

/-! ## What decides the form -/

/-- The tokens other than plain text. -/
def marks (tokens : Alternative) : List Token :=
  tokens.filter fun token => !token.isLiteral

/-- The plain texts before, between and behind the other tokens. -/
def gaps (tokens : Alternative) : List Text :=
  (tokens.splitOnP fun token => !token.isLiteral).map expr

theorem marks_cons {token : Token} (h : token.isLiteral = false) (tokens : Alternative) :
    marks (token :: tokens) = token :: marks tokens :=
  List.filter_cons_of_pos (by rw [h]; rfl)

theorem marks_literal (t : Text) (tokens : Alternative) :
    marks (.literal t :: tokens) = marks tokens :=
  List.filter_cons_of_neg Bool.false_ne_true

theorem gaps_cons {token : Token} (h : token.isLiteral = false) (tokens : Alternative) :
    gaps (token :: tokens) = [] :: gaps tokens := by
  rw [gaps, List.splitOnP_cons_eq_if_modifyHead, if_pos (by rw [h]; rfl)]
  rfl

theorem gaps_literal (t : Text) (tokens : Alternative) :
    gaps (.literal t :: tokens) = (gaps tokens).modifyHead (t ++ ·) := by
  have hliteral : ¬ (!(Token.literal t).isLiteral) = true := Bool.false_ne_true
  rw [gaps, List.splitOnP_cons_eq_if_modifyHead, if_neg hliteral, gaps]
  cases tokens.splitOnP fun token => !token.isLiteral <;> rfl

theorem exists_gaps (tokens : Alternative) : ∃ first more, gaps tokens = first :: more :=
  List.exists_cons_of_ne_nil (by simp [gaps])

/-- The tokens with texts before, between and behind them, of which there is one more. -/
def interleave : List Text → List Token → Alternative
  | [], marks => marks
  | gap :: _, [] => consLiteral gap []
  | gap :: gaps, mark :: marks => consLiteral gap (mark :: interleave gaps marks)

theorem interleave_append (t gap : Text) (gaps : List Text) (marks : List Token) :
    interleave ((t ++ gap) :: gaps) marks = consLiteral t (interleave (gap :: gaps) marks) := by
  cases marks with
  | nil => exact consLiteral_append t gap []
  | cons mark marks => exact consLiteral_append t gap (mark :: interleave gaps marks)

/-- **What the normal form is made of**: the tokens other than plain text, and the texts
before, between and behind them. -/
theorem merge_eq_interleave (tokens : Alternative) :
    merge tokens = interleave (gaps tokens) (marks tokens) := by
  induction tokens with
  | nil => rfl
  | cons token tokens ih =>
    rcases token.eq_literal_or with ⟨t, rfl⟩ | htoken
    · -- the text goes into the first of the texts
      obtain ⟨first, more, hgaps⟩ := exists_gaps tokens
      rw [merge, ih, gaps_literal, marks_literal, hgaps, List.modifyHead_cons, interleave_append]
    · rw [merge_cons htoken, ih, gaps_cons htoken, marks_cons htoken]
      rfl

theorem marks_consLiteral (t : Text) (tokens : Alternative) :
    marks (consLiteral t tokens) = marks tokens := by
  rcases consLiteral_cases t tokens with rfl | ⟨ht, u, rest, rfl⟩ | ⟨ht, htokens⟩
  · rfl
  · rw [consLiteral_literal ht, marks_literal, marks_literal]
  · rw [consLiteral_apart ht htokens, marks_literal]

theorem gaps_consLiteral (t : Text) (tokens : Alternative) :
    gaps (consLiteral t tokens) = (gaps tokens).modifyHead (t ++ ·) := by
  rcases consLiteral_cases t tokens with rfl | ⟨ht, u, rest, rfl⟩ | ⟨ht, htokens⟩
  · obtain ⟨first, more, hgaps⟩ := exists_gaps tokens
    rw [consLiteral_empty, hgaps]
    rfl
  · -- the joined text and the two texts are the start of the same first text
    obtain ⟨first, more, hgaps⟩ := exists_gaps rest
    rw [consLiteral_literal ht, gaps_literal, gaps_literal, hgaps]
    simp
  · rw [consLiteral_apart ht htokens, gaps_literal]

/-- Merging keeps the other tokens. -/
theorem marks_merge (tokens : Alternative) : marks (merge tokens) = marks tokens := by
  induction tokens with
  | nil => rfl
  | cons token tokens ih =>
    rcases token.eq_literal_or with ⟨t, rfl⟩ | htoken
    · rw [merge, marks_consLiteral, ih, marks_literal]
    · rw [merge_cons htoken, marks_cons htoken, ih, marks_cons htoken]

/-- Merging keeps the texts between the other tokens. -/
theorem gaps_merge (tokens : Alternative) : gaps (merge tokens) = gaps tokens := by
  induction tokens with
  | nil => rfl
  | cons token tokens ih =>
    rcases token.eq_literal_or with ⟨t, rfl⟩ | htoken
    · rw [merge, gaps_consLiteral, ih, gaps_literal]
    · rw [merge_cons htoken, gaps_cons htoken, ih, gaps_cons htoken]

/-- Two alternatives have the same normal form just when they have the same tokens other than
plain text, with the same texts before, between and behind them. -/
theorem merge_eq_iff (tokens others : Alternative) :
    merge tokens = merge others ↔ marks tokens = marks others ∧ gaps tokens = gaps others := by
  constructor
  · intro h
    -- both can be read off the normal form
    rw [← marks_merge tokens, ← gaps_merge tokens, h, marks_merge, gaps_merge]
    exact ⟨rfl, rfl⟩
  · rintro ⟨hmarks, hgaps⟩
    rw [merge_eq_interleave, merge_eq_interleave, hmarks, hgaps]

/-- **Merging computes the normal form of an alternative.**  It keeps the text and the tokens
other than plain text, and leaves no empty plain text and no two plain texts next to each
other.  It can be done from the left with an eye on the last token only.  The pieces of an
alternative may be merged first, and merging twice is merging once.  Two alternatives have the
same normal form just when they have the same tokens other than plain text, with the same texts
before, between and behind them. -/
theorem merge_normal_form (tokens others : Alternative) :
    expr (merge tokens) = expr tokens
    ∧ marks (merge tokens) = marks tokens
    ∧ IsMerged (merge tokens)
    ∧ merge tokens = tokens.foldl absorb []
    ∧ merge (tokens ++ others) = merge (merge tokens ++ merge others)
    ∧ merge (merge tokens) = merge tokens
    ∧ (merge tokens = merge others ↔ marks tokens = marks others ∧ gaps tokens = gaps others) :=
  ⟨expr_merge tokens, marks_merge tokens, isMerged_merge tokens, merge_eq_foldl tokens,
    (merge_append_merge tokens others).symm, merge_eq_self (isMerged_merge tokens),
    merge_eq_iff tokens others⟩

/-- Empty texts, and texts that are cut in two, do not show in the normal form. -/
example : gaps [.literal ['a'], .literal [], .literal ['b'], .parent, .parent, .literal []]
      = [['a', 'b'], [], []]
    ∧ merge [.literal ['a'], .literal [], .literal ['b'], .parent, .parent, .literal []]
      = [.literal ['a', 'b'], .parent, .parent] := by
  decide

end NestedSheet.Selector.Alternative
