import Mathlib.Data.List.TakeWhile
import NestedSheet.Proofs.Quotation
import NestedSheet.Variables

/-!
# References to variables

Interpolation cuts a text into pieces from left to right.  Said without the pieces,
a text refers to a variable where a dollar sign stands outside of the complete
strings of the text and word characters follow it; the name is the whole run of
them.  A name has neither quotes nor dollar signs in it, so it does not matter that
interpolation passes a reference in one step.

Main results:

* `refersTo_cons` — the references of a text are the one that its first piece is,
  if it is one, and those of the text behind it.
* `interpolate_eq_error_iff` — interpolation fails exactly with the leftmost variable
  that has no value.
* `interpolate_fails_iff` — it fails exactly when there is one.
* `interpolate_without_dollar` — a text without dollar signs stays as it is.
-/

namespace NestedSheet

/-- The text refers to the variable `name`, with `rest` behind the reference. -/
structure RefersTo (t name rest : Text) : Prop where
  outside : Text.OutsideStrings t ('$' :: (name ++ rest))
  name_ne_nil : name ≠ []
  isWord : ∀ c ∈ name, Text.isWord c = true
  whole : rest.head?.all (fun c => !Text.isWord c) = true

/-- The text refers to a variable that has no value. -/
def HasUndefined (env : Environment) (t : Text) : Prop :=
  ∃ name rest, RefersTo t name rest ∧ env.get? name = none

/-- The variable is the one without a value that the text refers to leftmost: no more
of the text stands behind any other reference to one. -/
def LeftmostUndefined (env : Environment) (t name : Text) : Prop :=
  ∃ rest, RefersTo t name rest ∧ env.get? name = none
    ∧ ∀ name' rest', RefersTo t name' rest' → env.get? name' = none →
      (name' ++ rest').length ≤ (name ++ rest).length

theorem LeftmostUndefined.hasUndefined {env : Environment} {t name : Text}
    (h : LeftmostUndefined env t name) : HasUndefined env t := by
  obtain ⟨rest, hrefers, hnone, -⟩ := h
  exact ⟨name, rest, hrefers, hnone⟩

/-! ## Names -/

theorem isQuote_of_isWord {c : Char} (h : Text.isWord c = true) :
    Text.isQuote c = false ∧ c ≠ '$' := by
  have hnone : ['"', '\'', '$'].all (fun d => !Text.isWord d) = true := by decide +kernel
  have hne : ∀ d ∈ ['"', '\'', '$'], c ≠ d := by
    rintro d hd rfl
    have hother := List.all_eq_true.1 hnone c hd
    rw [h] at hother
    cases hother
  refine ⟨?_, hne '$' (by simp)⟩
  simp [Text.isQuote, hne '"' (by simp), hne '\'' (by simp)]

theorem RefersTo.length_lt {t name rest : Text} (h : RefersTo t name rest) :
    (name ++ rest).length < t.length := by
  have hle := h.outside.length_le
  rw [List.length_cons] at hle
  omega

/-- The name is the longest run of word characters after the dollar sign. -/
theorem RefersTo.name_eq {t name rest cs : Text} (h : RefersTo t name rest)
    (hcs : cs = name ++ rest) :
    name = cs.takeWhile Text.isWord ∧ rest = cs.dropWhile Text.isWord := by
  have hstop : rest.takeWhile Text.isWord = [] ∧ rest.dropWhile Text.isWord = rest := by
    have hwhole := h.whole
    cases rest with
    | nil => exact ⟨rfl, rfl⟩
    | cons c rest =>
      have hc : Text.isWord c = false := by simpa using hwhole
      simp [hc]
  subst hcs
  constructor
  · rw [List.takeWhile_append_of_pos h.isWord, hstop.1, List.append_nil]
  · rw [List.dropWhile_append_of_pos h.isWord, hstop.2]

/-! ## The first piece -/

theorem refersTo_nil (name rest : Text) : ¬ RefersTo [] name rest := by
  intro h
  have := h.length_lt
  simp at this

/-- Texts in which the same dollar signs are reached have the same references. -/
theorem refersTo_congr {t u : Text} (h : ∀ cs, Text.OutsideStrings t ('$' :: cs)
    ↔ Text.OutsideStrings u ('$' :: cs)) (name rest : Text) :
    RefersTo t name rest ↔ RefersTo u name rest := by
  constructor
  · rintro ⟨houtside, hne, hword, hwhole⟩
    exact ⟨(h _).1 houtside, hne, hword, hwhole⟩
  · rintro ⟨houtside, hne, hword, hwhole⟩
    exact ⟨(h _).2 houtside, hne, hword, hwhole⟩

/-- No reference starts in a complete string. -/
theorem refersTo_quotation {span after : Text} (h : Text.Quotation span) (name rest : Text) :
    RefersTo (span ++ after) name rest ↔ RefersTo after name rest :=
  refersTo_congr (fun _ => Text.Reached.quotation_iff h
    (not_not_intro ⟨span, after, h, rfl⟩) rfl) name rest

/-- The word characters of a name can be passed one by one. -/
theorem refersTo_dropWhile (cs name rest : Text) :
    RefersTo (cs.dropWhile Text.isWord) name rest ↔ RefersTo cs name rest := by
  refine refersTo_congr (fun u => ?_) name rest
  have hrun : ∀ d ∈ cs.takeWhile Text.isWord, Text.isQuote d = false ∧ d ≠ '$' :=
    fun d hd => isQuote_of_isWord (List.mem_takeWhile_imp hd)
  have hpast : Text.OutsideStrings (cs.takeWhile Text.isWord ++ cs.dropWhile Text.isWord) ('$' :: u)
      ↔ Text.OutsideStrings (cs.dropWhile Text.isWord) ('$' :: u) :=
    Text.reached_append (fun _ _ => Text.not_startsQuotation) hrun _ u
  rw [List.takeWhile_append_dropWhile] at hpast
  exact hpast.symm

section Character

variable {c : Char} {cs : Text} (h : ¬ Text.StartsQuotation (c :: cs))

include h

/-- Where no complete string starts, a reference starts with the character or behind it. -/
theorem refersTo_char (name rest : Text) :
    RefersTo (c :: cs) name rest ↔ (c = '$' ∧ name ≠ [] ∧ name = cs.takeWhile Text.isWord
      ∧ rest = cs.dropWhile Text.isWord) ∨ RefersTo cs name rest := by
  have hpass : ∀ u, Text.OutsideStrings (c :: cs) u ↔ u = c :: cs ∨ Text.OutsideStrings cs u :=
    fun u => Text.Reached.cons_iff h h
  constructor
  · intro hrefers
    rcases (hpass _).1 hrefers.outside with heq | hbehind
    · obtain ⟨hc, hcs⟩ := List.cons.inj heq
      exact Or.inl ⟨hc.symm, hrefers.name_ne_nil, hrefers.name_eq hcs.symm⟩
    · exact Or.inr ⟨hbehind, hrefers.name_ne_nil, hrefers.isWord, hrefers.whole⟩
  · rintro (⟨rfl, hne, rfl, rfl⟩ | hrefers)
    · refine ⟨(hpass _).2 (Or.inl ?_), hne, fun d hd => List.mem_takeWhile_imp hd, ?_⟩
      · rw [List.takeWhile_append_dropWhile]
      · -- the run of word characters ends where no word character follows
        cases hdrop : cs.dropWhile Text.isWord with
        | nil => rfl
        | cons d ds =>
          have hd := List.head?_dropWhile_not Text.isWord cs
          simp only [hdrop, List.head?_cons] at hd
          simp [hd]
    · exact ⟨(hpass _).2 (Or.inr hrefers.outside), hrefers.name_ne_nil, hrefers.isWord,
        hrefers.whole⟩

end Character

/-- The references of a text are the one that its first piece is, if it is one, and
those of the text behind it. -/
theorem refersTo_cons (c : Char) (cs name rest : Text) :
    RefersTo (c :: cs) name rest ↔
      Piece.next c cs = (.reference name, rest) ∨ RefersTo (Piece.next c cs).2 name rest := by
  rw [Piece.next]
  split
  · next span after hspan =>
    -- a complete string is passed as a whole, and is no reference
    obtain ⟨hquotation, htext⟩ := Text.completeSpan?_eq_some_iff.1 hspan
    rw [htext, refersTo_quotation hquotation]
    constructor
    · exact Or.inr
    · rintro (h | h)
      · cases h
      · exact h
  · next hspan =>
    rw [refersTo_char (Text.completeSpan?_eq_none_iff.1 hspan)]
    split
    · next hname =>
      -- the piece takes the name, in which no reference starts
      obtain ⟨rfl, hname⟩ := hname
      rw [refersTo_dropWhile]
      refine or_congr ⟨?_, ?_⟩ Iff.rfl
      · rintro ⟨-, -, rfl, rfl⟩
        rfl
      · intro heq
        obtain ⟨hn, rfl⟩ := Prod.mk.inj heq
        cases hn
        exact ⟨rfl, hname, rfl, rfl⟩
    · next hname =>
      refine or_congr ⟨?_, fun heq => by cases heq⟩ Iff.rfl
      -- a dollar sign with a word behind it would be a reference
      rintro ⟨rfl, hne, rfl, -⟩
      exact absurd ⟨rfl, hne⟩ hname

/-! ## Interpolation -/

namespace Environment

theorem interpolate_nil (env : Environment) : env.interpolate [] = .ok [] := by
  rw [interpolate, Piece.ofText]
  rfl

/-- A text is interpolated piece by piece. -/
theorem interpolate_cons (env : Environment) (c : Char) (cs : Text) :
    env.interpolate (c :: cs) = (do
      let first ← (Piece.next c cs).1.eval env
      let rest ← env.interpolate (Piece.next c cs).2
      pure (first ++ rest)) := by
  rw [interpolate, Piece.ofText, List.mapM_cons]
  cases (Piece.next c cs).1.eval env with
  | error name => rfl
  | ok first =>
    show Except.map List.flatten (do
      let rest ← (Piece.ofText (Piece.next c cs).2).mapM (Piece.eval env)
      pure (first :: rest)) = _
    rw [interpolate]
    cases (Piece.ofText (Piece.next c cs).2).mapM (Piece.eval env) <;> rfl

end Environment

/-- Induction over a text piece by piece. -/
theorem piece_induction {motive : Text → Prop} (nil : motive [])
    (cons : ∀ c cs, motive (Piece.next c cs).2 → motive (c :: cs)) (t : Text) : motive t := by
  induction t using Piece.ofText.induct with
  | case1 => exact nil
  | case2 c cs ih => exact cons c cs ih

section Undefined

variable {env : Environment}

/-- A piece without a value is a reference to a variable that has none. -/
theorem eval_eq_error {piece : Piece} {name : Text} (h : piece.eval env = .error name) :
    piece = .reference name ∧ env.get? name = none := by
  cases piece with
  | verbatim text => cases h
  | reference other =>
    rw [Piece.eval] at h
    split at h
    · cases h
    · next hnone =>
      cases h
      exact ⟨rfl, hnone⟩

/-- A reference that has a value does not count. -/
theorem undefined_cons_of_ok {c : Char} {cs first : Text}
    (h : (Piece.next c cs).1.eval env = .ok first) (name rest : Text) (hnone : env.get? name = none) :
    RefersTo (c :: cs) name rest ↔ RefersTo (Piece.next c cs).2 name rest := by
  rw [refersTo_cons]
  constructor
  · rintro (heq | hrefers)
    · rw [heq, Piece.eval, hnone] at h
      cases h
    · exact hrefers
  · exact Or.inr

theorem leftmostUndefined_cons_of_ok {c : Char} {cs first : Text}
    (h : (Piece.next c cs).1.eval env = .ok first) (name : Text) :
    LeftmostUndefined env (c :: cs) name ↔ LeftmostUndefined env (Piece.next c cs).2 name := by
  have hcons := undefined_cons_of_ok h
  constructor
  · rintro ⟨rest, hrefers, hnone, hleft⟩
    refine ⟨rest, (hcons name rest hnone).1 hrefers, hnone, fun name' rest' hrefers' hnone' => ?_⟩
    exact hleft name' rest' ((hcons name' rest' hnone').2 hrefers') hnone'
  · rintro ⟨rest, hrefers, hnone, hleft⟩
    refine ⟨rest, (hcons name rest hnone).2 hrefers, hnone, fun name' rest' hrefers' hnone' => ?_⟩
    exact hleft name' rest' ((hcons name' rest' hnone').1 hrefers') hnone'

/-- A first piece without a value is the leftmost reference of this kind. -/
theorem leftmostUndefined_cons_of_error {c : Char} {cs undefined : Text}
    (h : (Piece.next c cs).1.eval env = .error undefined) (name : Text) :
    LeftmostUndefined env (c :: cs) name ↔ undefined = name := by
  obtain ⟨hpiece, hnone⟩ := eval_eq_error h
  generalize hrest : (Piece.next c cs).2 = rest
  have hnext : Piece.next c cs = (.reference undefined, rest) := Prod.ext hpiece hrest
  have hfirst : RefersTo (c :: cs) undefined rest := (refersTo_cons ..).2 (Or.inl hnext)
  -- every other reference stands behind the first one, so less of the text follows it
  have hbehind : ∀ name' rest', RefersTo (c :: cs) name' rest' →
      (undefined = name' ∧ rest = rest') ∨ (name' ++ rest').length < rest.length := by
    intro name' rest' hrefers
    rcases (refersTo_cons ..).1 hrefers with heq | hlater
    · rw [hnext] at heq
      cases heq
      exact Or.inl ⟨rfl, rfl⟩
    · rw [hrest] at hlater
      exact Or.inr hlater.length_lt
  constructor
  · rintro ⟨rest', hrefers, -, hleft⟩
    rcases hbehind name rest' hrefers with ⟨rfl, -⟩ | hlt
    · rfl
    · -- the first piece is further left than this one
      have := hleft undefined rest hfirst hnone
      rw [List.length_append] at this
      omega
  · rintro rfl
    refine ⟨rest, hfirst, hnone, fun name' rest' hrefers _ => ?_⟩
    rcases hbehind name' rest' hrefers with ⟨rfl, rfl⟩ | hlt
    · exact Nat.le_refl _
    · simp only [List.length_append] at hlt ⊢
      omega

/-- Interpolation fails exactly with the leftmost variable that has no value. -/
theorem interpolate_eq_error_iff {t name : Text} :
    env.interpolate t = .error name ↔ LeftmostUndefined env t name := by
  induction t using piece_induction with
  | nil =>
    rw [Environment.interpolate_nil]
    exact ⟨nofun, fun ⟨rest, hrefers, _⟩ => absurd hrefers (refersTo_nil name rest)⟩
  | cons c cs ih =>
    rw [Environment.interpolate_cons]
    cases hfirst : (Piece.next c cs).1.eval env with
    | error undefined =>
      rw [leftmostUndefined_cons_of_error hfirst]
      exact ⟨fun h => Except.error.inj h, congrArg Except.error⟩
    | ok first =>
      rw [leftmostUndefined_cons_of_ok hfirst, ← ih]
      show (do let rest ← env.interpolate (Piece.next c cs).2; pure (first ++ rest)) = _ ↔ _
      cases env.interpolate (Piece.next c cs).2 with
      | error undefined => exact ⟨fun h => h, fun h => h⟩
      | ok rest => exact ⟨nofun, nofun⟩

/-- Interpolation fails exactly on a text that refers to a variable without a value. -/
theorem interpolate_fails_iff {t : Text} :
    (∃ name, env.interpolate t = .error name) ↔ HasUndefined env t := by
  constructor
  · rintro ⟨name, h⟩
    exact (interpolate_eq_error_iff.1 h).hasUndefined
  · -- along the pieces: either the first one fails or the reference stands behind it
    induction t using piece_induction with
    | nil => exact fun ⟨name, rest, hrefers, _⟩ => absurd hrefers (refersTo_nil name rest)
    | cons c cs ih =>
      rintro ⟨name, rest, hrefers, hnone⟩
      rw [Environment.interpolate_cons]
      cases hfirst : (Piece.next c cs).1.eval env with
      | error undefined => exact ⟨undefined, rfl⟩
      | ok first =>
        obtain ⟨undefined, herror⟩ :=
          ih ⟨name, rest, (undefined_cons_of_ok hfirst name rest hnone).1 hrefers, hnone⟩
        exact ⟨undefined, by rw [herror]; rfl⟩

end Undefined

/-! ## Texts without references -/

/-- A piece of a text without dollar signs is verbatim. -/
theorem next_without_dollar {c : Char} {cs : Text} (h : '$' ∉ c :: cs) :
    ∃ text rest, Piece.next c cs = (.verbatim text, rest) ∧ text ++ rest = c :: cs := by
  rw [Piece.next]
  split
  · next span rest hspan => exact ⟨span, rest, rfl, Text.completeSpan?_append hspan⟩
  · have hc : c ≠ '$' := by
      rintro rfl
      exact h List.mem_cons_self
    rw [if_neg fun hname => hc hname.1]
    exact ⟨[c], cs, rfl, rfl⟩

/-- A text without dollar signs stays as it is. -/
theorem interpolate_without_dollar (env : Environment) {t : Text} (h : '$' ∉ t) :
    env.interpolate t = .ok t := by
  induction t using piece_induction with
  | nil => exact env.interpolate_nil
  | cons c cs ih =>
    obtain ⟨text, rest, hnext, htext⟩ := next_without_dollar h
    have hrest : '$' ∉ rest := by
      intro hmem
      exact h (htext ▸ List.mem_append_right text hmem)
    rw [hnext] at ih
    rw [Environment.interpolate_cons, hnext, ← htext]
    show (do let rest ← env.interpolate rest; pure (text ++ rest)) = _
    rw [ih hrest]
    rfl

end NestedSheet
