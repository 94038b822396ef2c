import NestedSheet.Proofs.Composition
import NestedSheet.Proofs.Markers
import NestedSheet.Proofs.SelectorText

/-!
# Selectors that are read as themselves

A selector that came out of resolving can be put into a line again.  The line is read
as this selector if nothing in it is taken for a marker or for a comma, and if every
quote in it is closed: such a text is closed, and texts put together from closed ones
are closed.  Reading makes closed tokens of a line in which every quote is closed, and
resolving puts closed selectors in the place of the markers between them.

Main results:

* `parse_closed` — the tokens of a line are closed.
* `closed_of_mem_resolve`, `resolve_closed` — the selectors of a rule are closed.
* `parse_joined` — closed selectors with commas between them are read as themselves.
* `resolve_joined` — a rule that has its selectors as lines is resolved to them.
-/

namespace NestedSheet.Selector

/-! ## Lines with all quotes closed -/

/-- Every quote of the line that stands outside of the strings before it starts a
complete string. -/
def Terminated (line : Text) : Prop :=
  ∀ q cs, Text.OutsideQuotes line (q :: cs) → Text.isQuote q = true → Text.StartsQuotation (q :: cs)

theorem terminated_nil : Terminated [] := by
  intro q cs h
  have := h.length_le
  simp at this

theorem terminated_cons {c : Char} (hc : Text.isQuote c = false) (cs : Text) :
    Terminated (c :: cs) ↔ Terminated cs := by
  have hpass : ∀ u, Text.OutsideQuotes (c :: cs) u ↔ u = c :: cs ∨ Text.OutsideQuotes cs u :=
    fun u => Text.Reached.cons_iff (Text.not_startsQuotation hc) (by simp [hc])
  constructor
  · intro h q rest hrest
    exact h q rest ((hpass _).2 (Or.inr hrest))
  · intro h q rest hrest hq
    rcases (hpass _).1 hrest with heq | hrest
    · obtain ⟨rfl, -⟩ := List.cons.inj heq
      rw [hc] at hq
      cases hq
    · exact h q rest hrest hq

theorem terminated_append {t : Text} (ht : ∀ c ∈ t, Text.isQuote c = false) (rest : Text) :
    Terminated (t ++ rest) ↔ Terminated rest := by
  induction t with
  | nil => exact Iff.rfl
  | cons c cs ih =>
    obtain ⟨hc, hcs⟩ := List.forall_mem_cons.1 ht
    rw [List.cons_append, terminated_cons hc, ih hcs]

theorem terminated_quotation {span : Text} (hspan : Text.Quotation span) (rest : Text) :
    Terminated (span ++ rest) ↔ Terminated rest := by
  have hpass : ∀ u, Text.OutsideQuotes (span ++ rest) u
      ↔ u = span ++ rest ∨ Text.OutsideQuotes rest u := by
    intro u
    refine Text.Reached.string_iff hspan ?_
    obtain ⟨q, inside, hq, -, rfl⟩ := hspan.exists_cons
    simp [hq]
  constructor
  · intro h q cs hcs
    exact h q cs ((hpass _).2 (Or.inr hcs))
  · intro h q cs hcs hq
    rcases (hpass _).1 hcs with heq | hcs
    · exact ⟨span, rest, hspan, heq⟩
    · exact h q cs hcs hq

/-! ## Closed texts -/

/-- Is the character none of those that selectors treat apart? -/
def isPlain (c : Char) : Bool :=
  c != parentMark && c != ',' && !Text.isQuote c

/-- Plain characters and complete strings. -/
inductive Closed : Text → Prop
  | nil : Closed []
  | character {c : Char} {t : Text} : isPlain c = true → Closed t → Closed (c :: t)
  | string {span t : Text} : Text.Quotation span → Closed t → Closed (span ++ t)

theorem Closed.append {t u : Text} (ht : Closed t) (hu : Closed u) : Closed (t ++ u) := by
  induction ht with
  | nil => exact hu
  | character hc _ ih => exact character hc ih
  | string hspan _ ih =>
    rw [List.append_assoc]
    exact string hspan ih

theorem closed_flatMap {α : Type} {f : α → Text} {xs : List α} (h : ∀ x ∈ xs, Closed (f x)) :
    Closed (xs.flatMap f) := by
  induction xs with
  | nil => exact Closed.nil
  | cons x xs ih =>
    obtain ⟨hx, hxs⟩ := List.forall_mem_cons.1 h
    exact hx.append (ih hxs)

theorem closed_quotation {span : Text} (hspan : Text.Quotation span) : Closed span := by
  have h := Closed.string hspan Closed.nil
  rwa [List.append_nil] at h

/-! ## The tokens of a line -/

/-- The text of every token other than a marker is closed. -/
def Alternative.Closed (tokens : Alternative) : Prop :=
  ∀ token ∈ tokens, token ≠ .parent → Selector.Closed token.expr

/-- Where every quote is closed, every item but the markers and commas is closed. -/
theorem items_closed (line : Text) (h : Terminated line) (token : Token)
    (htoken : .token token ∈ items line) (hparent : token ≠ .parent) : Closed token.expr := by
  induction line using items.induct with
  | case1 =>
    rw [items] at htoken
    cases htoken
  | case2 cs ih =>
    rw [items, if_pos rfl, List.mem_cons, Item.token.injEq, or_iff_right hparent] at htoken
    exact ih ((terminated_cons rfl cs).1 h) htoken
  | case3 cs hempty hne =>
    rw [items, if_neg hne, if_pos rfl, if_pos hempty] at htoken
    cases htoken
  | case4 cs hempty hne ih =>
    rw [items, if_neg hne, if_pos rfl, if_neg hempty] at htoken
    simp only [List.mem_cons, reduceCtorEq, false_or] at htoken
    -- the blanks behind the comma are no quotes
    have hblank : ∀ c ∈ cs.takeWhile Text.isBlank, Text.isQuote c = false :=
      fun c hc => (isQuote_of_isBlank (List.mem_takeWhile_imp hc)).1
    have hskip := terminated_append hblank (Text.stripStart cs)
    rw [Text.stripStart, List.takeWhile_append_dropWhile] at hskip
    exact ih (hskip.1 ((terminated_cons rfl cs).1 h)) htoken
  | case5 q cs hne hcomma hq ih =>
    rcases Text.quoted_cases hq cs with ⟨inside, rest, hinside, rfl, hbody⟩ | ⟨-, -, hstarts⟩
    · -- a complete string is an item by itself, and closed
      have hspan := Text.Quotation.intro hq hinside
      rw [quotedSpan, hbody] at ih
      rw [items_quotation hq hinside, List.mem_cons, Item.token.injEq] at htoken
      rcases htoken with rfl | htoken
      · exact closed_quotation hspan
      · have hrest := terminated_quotation hspan rest
        rw [List.cons_append, List.append_assoc, List.singleton_append] at hrest
        exact ih (hrest.1 h) htoken
    · -- the line would start with a quote that nothing closes
      exact absurd (h q cs (Text.Reached.here _) hq) hstarts
  | case6 c cs hne hcomma hq ih =>
    rw [items, if_neg hne, if_neg hcomma, if_neg hq, List.mem_cons, Item.token.injEq] at htoken
    rcases htoken with rfl | htoken
    · exact Closed.character (by simp [isPlain, hne, hcomma, hq]) Closed.nil
    · exact ih ((terminated_cons (by simpa using hq) cs).1 h) htoken

namespace Alternative

theorem Closed.consLiteral {text : Text} {tokens : Alternative} (htext : Selector.Closed text)
    (h : tokens.Closed) : (consLiteral text tokens).Closed := by
  unfold Alternative.consLiteral
  split
  · exact h
  · split
    · next next rest =>
      obtain ⟨hnext, hrest⟩ := List.forall_mem_cons.1 h
      exact List.forall_mem_cons.2 ⟨fun _ => htext.append (hnext (literal_ne_parent next)), hrest⟩
    · exact List.forall_mem_cons.2 ⟨fun _ => htext, h⟩

theorem Closed.merge {tokens : Alternative} (h : tokens.Closed) : (merge tokens).Closed := by
  fun_induction Alternative.merge tokens with
  | case1 => exact h
  | case2 text tokens ih =>
    obtain ⟨htext, htokens⟩ := List.forall_mem_cons.1 h
    exact consLiteral (htext (literal_ne_parent text)) (ih htokens)
  | case3 token tokens _ ih =>
    obtain ⟨htoken, htokens⟩ := List.forall_mem_cons.1 h
    exact List.forall_mem_cons.2 ⟨htoken, ih htokens⟩

theorem Closed.marked {tokens : Alternative} (h : tokens.Closed) : tokens.marked.Closed := by
  unfold Alternative.marked
  split
  · exact h
  · have hspace : Selector.Closed [' '] := Selector.Closed.character rfl Selector.Closed.nil
    exact List.forall_mem_cons.2 ⟨fun hne => absurd rfl hne,
      List.forall_mem_cons.2 ⟨fun _ => hspace, h⟩⟩

/-- The selector of an alternative inside a closed one is closed. -/
theorem Closed.inside {tokens : Alternative} (h : tokens.Closed) {outer : Text}
    (houter : Selector.Closed outer) : Selector.Closed (tokens.inside outer) := by
  rw [inside_eq]
  refine closed_flatMap fun token htoken => ?_
  split
  · exact houter
  · next hne => exact h.marked token htoken hne

theorem Closed.expr {tokens : Alternative} (h : tokens.Closed) (hparent : .parent ∉ tokens) :
    Selector.Closed tokens.expr := by
  refine closed_flatMap fun token htoken => h token htoken ?_
  rintro rfl
  exact hparent htoken

end Alternative

/-- The tokens of a line in which every quote is closed are closed. -/
theorem parse_closed {line : Text} (h : Terminated line) :
    ∀ alternative ∈ parse line, alternative.Closed := by
  intro alternative halternative
  obtain ⟨tokens, htokens, rfl⟩ := List.mem_map.1 halternative
  refine Alternative.Closed.merge fun token htoken => ?_
  exact items_closed line h token ((exists_mem_divide _ _).1 ⟨tokens, htokens, htoken⟩)

/-! ## Resolving -/

/-- Lines of closed selectors, none of them empty. -/
def Resolved.Closed (resolved : Resolved) : Prop :=
  ∀ line ∈ resolved, line ≠ [] ∧ ∀ t ∈ line, Selector.Closed t

/-- Lines of closed alternatives, none of them empty. -/
def ClosedLines (lines : List Line) : Prop :=
  ∀ line ∈ lines, line ≠ [] ∧ ∀ alternative ∈ line, Alternative.Closed alternative

/-- Every selector of a rule is closed if the alternatives and the selectors around it
are. -/
theorem closed_of_mem_resolve {lines : List Line}
    (hlines : ∀ line ∈ lines, ∀ alternative ∈ line, Alternative.Closed alternative)
    {outer : Option Resolved}
    (houter : ∀ ancestor, outer = some ancestor → ∀ line ∈ ancestor, ∀ t ∈ line, Closed t)
    {resolved : Resolved} (h : resolve lines outer = some resolved) :
    ∀ line ∈ resolved, ∀ t ∈ line, Closed t := by
  cases outer with
  | none =>
    rw [resolve] at h
    split at h
    · cases h
    · next hrefers =>
      -- there is no marker in the lines, and all other tokens are closed
      cases h
      refine List.forall_mem_map.2 fun line hline => ?_
      refine List.forall_mem_map.2 fun alternative halternative => ?_
      refine (hlines line hline alternative halternative).expr fun hparent => hrefers ?_
      exact List.any_eq_true.2 ⟨line, hline, List.any_eq_true.2
        ⟨alternative, halternative, List.contains_iff_mem.2 hparent⟩⟩
  | some ancestor =>
    -- every selector comes from an alternative and from a selector around it
    cases h
    intro combined hcombined t ht
    obtain ⟨outerLine, houterLine, hcombined⟩ := List.mem_flatMap.1 hcombined
    obtain ⟨line, hline, rfl⟩ := List.mem_map.1 hcombined
    obtain ⟨selector, hselector, ht⟩ := List.mem_flatMap.1 ht
    obtain ⟨alternative, halternative, rfl⟩ := List.mem_map.1 ht
    exact (hlines line hline alternative halternative).inside
      (houter ancestor rfl outerLine houterLine selector hselector)

/-- The selectors of a rule are closed if its lines and the selectors around it are. -/
theorem resolve_closed {lines : List Line} (hlines : ClosedLines lines)
    {outer : Option Resolved} (houter : ∀ ancestor, outer = some ancestor → Resolved.Closed ancestor)
    {resolved : Resolved} (h : resolve lines outer = some resolved) : Resolved.Closed resolved := by
  have hclosed := closed_of_mem_resolve (fun line hline => (hlines line hline).2)
    (fun ancestor heq line hline => (houter ancestor heq line hline).2) h
  refine fun combined hcombined => ⟨?_, hclosed combined hcombined⟩
  -- a line is not empty, since neither of the two that it comes from is
  cases outer with
  | none =>
    rw [resolve] at h
    split at h
    · cases h
    · cases h
      obtain ⟨line, hline, rfl⟩ := List.mem_map.1 hcombined
      simpa using (hlines line hline).1
  | some ancestor =>
    cases h
    obtain ⟨outerLine, houterLine, hcombined⟩ := List.mem_flatMap.1 hcombined
    obtain ⟨line, hline, rfl⟩ := List.mem_map.1 hcombined
    obtain ⟨first, rest, rfl⟩ :=
      List.exists_cons_of_ne_nil (houter ancestor rfl outerLine houterLine).1
    simp [Line.inside, (hlines line hline).1]

/-! ## Reading selectors again -/

/-- A closed text is read as tokens other than markers, with this text, whatever
follows it. -/
theorem Closed.items {t : Text} (h : Closed t) : ∃ tokens : Alternative, .parent ∉ tokens
    ∧ tokens.expr = t ∧ ∀ rest, items (t ++ rest) = tokens.map Item.token ++ items rest := by
  induction h with
  | nil => exact ⟨[], nofun, rfl, fun _ => rfl⟩
  | @character c t hc _ ih =>
    obtain ⟨tokens, hparent, hexpr, hitems⟩ := ih
    simp only [isPlain, Bool.and_eq_true, bne_iff_ne, Bool.not_eq_true'] at hc
    refine ⟨.literal [c] :: tokens, by simp [hparent], by simp [Token.expr, hexpr], fun rest => ?_⟩
    rw [List.cons_append, Selector.items, if_neg hc.1.1, if_neg hc.1.2, if_neg (by simp [hc.2]),
      hitems]
    rfl
  | @string span t hspan _ ih =>
    obtain ⟨tokens, hparent, hexpr, hitems⟩ := ih
    obtain ⟨q, inside, hq, hinside, rfl⟩ := hspan.exists_cons
    refine ⟨.quoted [q] inside [q] :: tokens, by simp [hparent], by simp [Token.expr, hexpr],
      fun rest => ?_⟩
    have htext : q :: (inside ++ [q]) ++ t ++ rest = q :: (inside ++ q :: (t ++ rest)) := by simp
    rw [htext, items_quotation hq hinside, hitems]
    rfl

/-- Selectors in one line. -/
def joined (texts : List Text) : Text :=
  [',', ' '].intercalate texts

/-- The text is not empty and does not start with a blank. -/
def startsInk (t : Text) : Bool :=
  t.head?.any fun c => !Text.isBlank c

theorem startsInk_append {t : Text} (ht : startsInk t = true) (rest : Text) :
    startsInk (t ++ rest) = true := by
  cases t with
  | nil => cases ht
  | cons c cs => exact ht

theorem startsInk_joined {t : Text} (ht : startsInk t = true) (texts : List Text) :
    startsInk (joined (t :: texts)) = true := by
  cases texts with
  | nil => simpa [joined] using ht
  | cons u texts =>
    rw [joined, List.intercalate_cons_cons, List.append_assoc]
    exact startsInk_append ht _

/-- Closed selectors in one line are read as themselves, and without markers. -/
theorem parse_joined {texts : List Text} (hne : texts ≠ []) (hclosed : ∀ t ∈ texts, Closed t)
    (hstart : ∀ t ∈ texts, startsInk t = true) :
    (parse (joined texts)).map Alternative.expr = texts
      ∧ ∀ alternative ∈ parse (joined texts), .parent ∉ alternative := by
  induction texts with
  | nil => exact absurd rfl hne
  | cons t texts ih =>
    obtain ⟨ht, hclosed⟩ := List.forall_mem_cons.1 hclosed
    obtain ⟨-, hstart⟩ := List.forall_mem_cons.1 hstart
    obtain ⟨tokens, hparent, hexpr, hitems⟩ := ht.items
    have hmerged : Token.parent ∉ Alternative.merge tokens :=
      mt (mem_merge (fun text => (literal_ne_parent text).symm) tokens).1 hparent
    cases texts with
    | nil =>
      have hread : parse (joined [t]) = [Alternative.merge tokens] := by
        have hitems := hitems []
        rw [List.append_nil, Selector.items, List.append_nil] at hitems
        rw [joined, List.intercalate_singleton, parse, hitems, (divide_tokens tokens []).2]
        rfl
      rw [hread, List.map_singleton, List.forall_mem_singleton, Alternative.expr_merge, hexpr]
      exact ⟨rfl, hmerged⟩
    | cons u texts =>
      obtain ⟨hrest, hmarkers⟩ := ih (List.cons_ne_nil u texts) hclosed hstart
      -- the comma behind the first selector divides it from the others
      have hcomma :
          items ([',', ' '] ++ joined (u :: texts)) = .comma :: items (joined (u :: texts)) :=
        @items_comma [' '] _ (by decide) (startsInk_joined (List.forall_mem_cons.1 hstart).1 texts)
      have hread : parse (joined (t :: u :: texts))
          = Alternative.merge tokens :: parse (joined (u :: texts)) := by
        rw [joined, List.intercalate_cons_cons, List.append_assoc, parse, hitems]
        show ((divide (_ ++ Selector.items ([',', ' '] ++ joined (u :: texts)))).map _) = _
        rw [hcomma, (divide_tokens tokens _).1]
        rfl
      rw [hread, List.map_cons, hrest, Alternative.expr_merge, hexpr]
      exact ⟨rfl, List.forall_mem_cons.2 ⟨hmerged, hmarkers⟩⟩

/-- A rule that has its selectors as lines is resolved to them, outside of all rules. -/
theorem resolve_joined {resolved : Resolved} (hclosed : Resolved.Closed resolved)
    (hstart : ∀ line ∈ resolved, ∀ t ∈ line, startsInk t = true) :
    resolve ((resolved.map joined).map parse) none = some resolved := by
  have hline : ∀ line ∈ resolved, (parse (joined line)).map Alternative.expr = line
      ∧ ∀ alternative ∈ parse (joined line), .parent ∉ alternative := by
    intro line hline
    obtain ⟨hne, hclosed⟩ := hclosed line hline
    exact parse_joined hne hclosed (hstart line hline)
  -- no alternative has a marker, so that the lines can stand outside of all rules
  have hrefers : refersToParent ((resolved.map joined).map parse) = false := by
    simp only [refersToParent, List.any_eq_false, List.map_map, List.forall_mem_map]
    intro line hmem
    simp only [Function.comp_apply, List.any_eq_true, not_exists, not_and]
    intro alternative halternative hparent
    exact (hline line hmem).2 alternative halternative (List.contains_iff_mem.1 hparent)
  rw [resolve, if_neg (by rw [hrefers]; exact Bool.false_ne_true), List.map_map, List.map_map]
  refine congrArg some ?_
  conv_rhs => rw [← List.map_id resolved]
  exact List.map_congr_left fun line hmem => (hline line hmem).1

end NestedSheet.Selector
