import Mathlib.Data.List.TakeWhile
import NestedSheet.Proofs.Quotation
import NestedSheet.Selector.Parse
import NestedSheet.Selector.Resolve

/-!
# Where selectors refer to the enclosing rule

A line of selectors is read as items, divided at the commas, and each alternative is
brought into normal form.  None of this adds or loses a parent marker: a line has one
exactly if its character stands in the line outside of the quotes.

Main results:

* `exists_mem_divide`, `mem_merge` — dividing and merging keep the tokens.
* `parent_mem_items_iff` — the markers among the items of a line.
* `hasMarker_iff` — the lines that refer to the enclosing rule.
-/

namespace NestedSheet.Selector

/-- The line has a parent marker outside of its quotes. -/
def HasMarker (line : Text) : Prop :=
  ∃ rest, Text.OutsideQuotes line (parentMark :: rest)

/-! ## Tokens of the alternatives -/

/-- The alternatives have the tokens of the items, whatever the commas are. -/
theorem exists_mem_divide (list : List Item) (token : Token) :
    (∃ alternative ∈ divide list, token ∈ alternative) ↔ .token token ∈ list := by
  induction list with
  | nil => simp [divide]
  | cons item list ih =>
    cases item with
    | comma => simpa [divide] using ih
    | token first =>
      obtain ⟨alternative, alternatives, hdivide⟩ := List.exists_cons_of_ne_nil (divide_ne_nil list)
      rw [hdivide] at ih
      rw [divide, hdivide, List.mem_cons, ← ih]
      simp only [List.mem_cons, exists_eq_or_imp, Item.token.injEq, or_assoc]

theorem literal_ne_parent (text : Text) : Token.literal text ≠ .parent := by
  intro h
  cases h

theorem mem_consLiteral {token : Token} (htoken : ∀ text, token ≠ .literal text) (text : Text)
    (tokens : Alternative) : token ∈ Alternative.consLiteral text tokens ↔ token ∈ tokens := by
  unfold Alternative.consLiteral
  split
  · exact Iff.rfl
  · split
    · simp [htoken]
    · simp [htoken]

/-- Merging plain texts keeps all other tokens. -/
theorem mem_merge {token : Token} (htoken : ∀ text, token ≠ .literal text)
    (tokens : Alternative) : token ∈ Alternative.merge tokens ↔ token ∈ tokens := by
  fun_induction Alternative.merge tokens with
  | case1 => exact Iff.rfl
  | case2 text tokens ih => rw [mem_consLiteral htoken, ih, List.mem_cons, or_iff_right (htoken text)]
  | case3 other tokens _ ih => rw [List.mem_cons, List.mem_cons, ih]

/-! ## Markers of a line -/

theorem isQuote_of_isBlank {c : Char} (h : Text.isBlank c = true) :
    Text.isQuote c = false ∧ c ≠ parentMark := by
  have hne : ∀ d, Text.isBlank d = false → c ≠ d := by
    rintro d hd rfl
    rw [hd] at h
    cases h
  refine ⟨?_, hne parentMark rfl⟩
  simp [Text.isQuote, hne '"' rfl, hne '\'' rfl]

theorem hasMarker_nil : ¬ HasMarker [] := by
  rintro ⟨rest, h⟩
  have := h.length_le
  simp at this

/-- Characters that are neither quotes nor markers are passed one by one. -/
theorem hasMarker_append {t : Text} (ht : ∀ c ∈ t, Text.isQuote c = false ∧ c ≠ parentMark)
    (rest : Text) : HasMarker (t ++ rest) ↔ HasMarker rest := by
  refine exists_congr fun after => Text.reached_append ?_ ht rest after
  intro c cs hc
  simp [hc]

theorem hasMarker_cons {c : Char} (hquote : Text.isQuote c = false) (hne : c ≠ parentMark)
    (cs : Text) : HasMarker (c :: cs) ↔ HasMarker cs := by
  refine hasMarker_append (t := [c]) ?_ cs
  intro d hd
  rw [List.mem_singleton] at hd
  exact hd ▸ ⟨hquote, hne⟩

theorem hasMarker_stripStart (t : Text) : HasMarker (Text.stripStart t) ↔ HasMarker t := by
  have hblank : ∀ c ∈ t.takeWhile Text.isBlank, Text.isQuote c = false ∧ c ≠ parentMark :=
    fun c hc => isQuote_of_isBlank (List.mem_takeWhile_imp hc)
  have hskip := hasMarker_append hblank (Text.stripStart t)
  rw [Text.stripStart, List.takeWhile_append_dropWhile] at hskip
  exact hskip.symm

/-- A complete string is passed as a whole. -/
theorem hasMarker_quotation {span : Text} (hspan : Text.Quotation span) (rest : Text) :
    HasMarker (span ++ rest) ↔ HasMarker rest := by
  refine exists_congr fun after => Text.Reached.quotation_iff hspan ?_ rfl
  obtain ⟨q, inside, hq, -, rfl⟩ := hspan.exists_cons
  simp [hq]

/-- Behind a quote that is not closed nothing is outside of the quotes. -/
theorem not_hasMarker {q : Char} {cs : Text} (hq : Text.isQuote q = true)
    (h : ¬ Text.StartsQuotation (q :: cs)) : ¬ HasMarker (q :: cs) := by
  rintro ⟨rest, houtside⟩
  generalize htext : q :: cs = t at houtside
  cases houtside with
  | here =>
    obtain ⟨rfl, -⟩ := List.cons.inj htext
    cases hq
  | string hspan _ => exact h ⟨_, _, hspan, htext⟩
  | character hsingle _ =>
    obtain ⟨rfl, -⟩ := List.cons.inj htext
    simp [hq] at hsingle

/-- A complete string is one item. -/
theorem items_quotation {q : Char} (hq : Text.isQuote q = true) {inside : Text}
    (hinside : Text.Inside q inside) (rest : Text) :
    items (q :: (inside ++ q :: rest)) = .token (.quoted [q] inside [q]) :: items rest := by
  have hparent : q ≠ parentMark := by
    rintro rfl
    cases hq
  have hcomma : q ≠ ',' := by
    rintro rfl
    cases hq
  have hspan : quotedSpan q (inside ++ q :: rest) = (.quoted [q] inside [q], rest) := by
    rw [quotedSpan, Text.body_inside (Text.isQuote_backslash hq) hinside]
    rfl
  rw [items, if_neg hparent, if_neg hcomma, if_pos hq, hspan]

/-- The items of a line have a marker exactly if the line has one outside of its
quotes. -/
theorem parent_mem_items_iff (line : Text) : .token .parent ∈ items line ↔ HasMarker line := by
  induction line using items.induct with
  | case1 =>
    rw [items]
    exact ⟨fun h => absurd h List.not_mem_nil, fun h => absurd h hasMarker_nil⟩
  | case2 cs ih =>
    rw [items, if_pos rfl]
    exact ⟨fun _ => ⟨cs, Text.Reached.here _⟩, fun _ => List.mem_cons_self⟩
  | case3 cs hempty hne =>
    -- only blanks stand behind the comma
    rw [items, if_neg hne, if_pos rfl, if_pos hempty, hasMarker_cons rfl hne,
      ← hasMarker_stripStart, List.isEmpty_iff.1 hempty]
    exact ⟨fun h => absurd h List.not_mem_nil, fun h => absurd h hasMarker_nil⟩
  | case4 cs hempty hne ih =>
    rw [items, if_neg hne, if_pos rfl, if_neg hempty, hasMarker_cons rfl hne,
      ← hasMarker_stripStart, ← ih]
    simp only [List.mem_cons, reduceCtorEq, false_or]
  | case5 q cs hparent hcomma hq ih =>
    rcases Text.quoted_cases hq cs with ⟨inside, rest, hinside, rfl, hbody⟩ | ⟨hdrop, -, hstarts⟩
    · -- a complete string is one item, and the line is read on behind it
      have hspan := hasMarker_quotation (Text.Quotation.intro hq hinside) rest
      rw [List.cons_append, List.append_assoc, List.singleton_append] at hspan
      rw [quotedSpan, hbody] at ih
      rw [items_quotation hq hinside, hspan]
      simp only [List.mem_cons, Item.token.injEq, reduceCtorEq, false_or]
      exact ih
    · -- the quote takes in the rest of the line
      have hnil : (quotedSpan q cs).2 = [] := hdrop
      rw [items, if_neg hparent, if_neg hcomma, if_pos hq, hnil, items]
      refine ⟨fun h => ?_, fun h => absurd h (not_hasMarker hq hstarts)⟩
      rw [List.mem_singleton] at h
      cases h
  | case6 c cs hparent hcomma hq ih =>
    rw [items, if_neg hparent, if_neg hcomma, if_neg hq,
      hasMarker_cons (by simpa using hq) hparent, ← ih]
    simp only [List.mem_cons, Item.token.injEq, reduceCtorEq, false_or]

/-- Some alternative of the line refers to the enclosing rule exactly if the line has
a marker outside of its quotes. -/
theorem hasMarker_iff (line : Text) :
    (parse line).any Alternative.hasParent = true ↔ HasMarker line := by
  rw [← parent_mem_items_iff, ← exists_mem_divide, parse, List.any_map, List.any_eq_true]
  refine exists_congr fun alternative => and_congr_right fun _ => ?_
  rw [Function.comp_apply, Alternative.hasParent, List.contains_iff_mem]
  exact mem_merge (fun text => (literal_ne_parent text).symm) alternative

end NestedSheet.Selector
