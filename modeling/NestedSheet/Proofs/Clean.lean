import NestedSheet.Proofs.FixedPoint
import NestedSheet.Proofs.Segments

/-!
# Selectors stay clean under nesting

Selectors are put together from the texts of several rules, one around the other, by
plain concatenation.  A selector is clean if reading it gives back the selector itself,
as a single alternative that has no marker and in which every quote is closed.  Clean
is the same as closed, so that clean selectors can be put in the place of markers, and
every selector in a tree is clean once it is resolved, however deep its rule stands.

It is not enough that the text is read as a single alternative: a comma at the end is
dropped in reading, and becomes active once something is put behind it.

Main results:

* `isClean_iff_closed` — clean selectors are put together from plain characters and
  complete strings.
* `resolve_clean` — resolving one rule keeps selectors clean.
* `selectors_stay_clean` — so does resolving a tree.
-/

namespace NestedSheet

namespace Selector

/-- The text is read as one alternative, without a marker and with all quotes closed. -/
def readsAlone (t : Text) : Bool :=
  match parse t with
  | [alternative] => !alternative.hasParent && alternative.all Token.isTerminated
  | _ => false

/-- The text is read alone, and as itself. -/
def isClean (t : Text) : Bool :=
  readsAlone t && (parse t).map Alternative.expr == [t]

theorem isClean_iff {t : Text} : isClean t = true ↔
    ∃ alternative, parse t = [alternative] ∧ .parent ∉ alternative
      ∧ alternative.all Token.isTerminated = true ∧ alternative.expr = t := by
  unfold isClean readsAlone
  constructor
  · intro h
    rw [Bool.and_eq_true, beq_iff_eq] at h
    obtain ⟨hread, hexpr⟩ := h
    split at hread
    · next alternative hparse =>
      rw [Bool.and_eq_true, Bool.not_eq_true', Alternative.hasParent] at hread
      rw [hparse, List.map_singleton, List.singleton_inj] at hexpr
      exact ⟨alternative, hparse, by simpa using hread.1, hread.2, hexpr⟩
    · cases hread
  · rintro ⟨alternative, hparse, hparent, hquotes, hexpr⟩
    simp [hparse, hquotes, hexpr, Alternative.hasParent, hparent]

/-! ## Clean texts are closed -/

theorem Closed.terminated {t : Text} (h : Closed t) : Terminated t := by
  induction h with
  | nil => exact terminated_nil
  | character hc _ ih => exact (terminated_cons (isPlain_iff.1 hc).2.2 _).2 ih
  | string hspan _ ih => exact (terminated_quotation hspan _).2 ih

/-- A closed text is read as one alternative that has its text and no markers. -/
theorem Closed.exists_parse {t : Text} (h : Closed t) : ∃ alternative,
    parse t = [alternative] ∧ .parent ∉ alternative ∧ alternative.expr = t := by
  obtain ⟨tokens, hparent, hexpr, hitems⟩ := h.items
  refine ⟨Alternative.merge tokens, ?_, ?_, ?_⟩
  · have hall := hitems []
    rw [List.append_nil, Selector.items, List.append_nil] at hall
    rw [parse, hall, (divide_tokens tokens []).2]
    rfl
  · exact mt (mem_merge (fun text => (literal_ne_parent text).symm) tokens).1 hparent
  · rw [Alternative.expr_merge, hexpr]

/-- A text is clean exactly if it is put together from plain characters and complete
strings. -/
theorem isClean_iff_closed {t : Text} : isClean t = true ↔ Closed t := by
  rw [isClean_iff]
  constructor
  · rintro ⟨alternative, hparse, hparent, hquotes, hexpr⟩
    have hterminated : Terminated t := by
      rw [terminated_iff, hparse, Line.isTerminated, List.all_cons, hquotes]
      rfl
    have hclosed := parse_closed hterminated alternative
      (by rw [hparse]; exact List.mem_singleton_self _)
    exact hexpr ▸ hclosed.expr hparent
  · intro h
    obtain ⟨alternative, hparse, hparent, hexpr⟩ := h.exists_parse
    have hquotes := (terminated_iff t).1 h.terminated
    rw [hparse, Line.isTerminated, List.all_cons, Bool.and_eq_true] at hquotes
    exact ⟨alternative, hparse, hparent, hquotes.1, hexpr⟩

/-- Outside of its quotes a closed text has neither markers nor commas. -/
theorem Closed.not_active {t : Text} (h : Closed t) {c : Char} {rest : Text}
    (houtside : Text.OutsideQuotes t (c :: rest)) : c ≠ parentMark ∧ c ≠ ',' := by
  -- what is reached from the left in a closed text is closed
  induction h with
  | nil =>
    have := houtside.length_le
    simp at this
  | @character d ds hd _ ih =>
    have hplain := isPlain_iff.1 hd
    rcases (Text.Reached.cons_iff (Text.not_startsQuotation hplain.2.2) (by simp [hplain.2.2])).1
      houtside with heq | hrest
    · obtain ⟨rfl, -⟩ := List.cons.inj heq
      exact ⟨hplain.1, hplain.2.1⟩
    · exact ih hrest
  | @string span ds hspan _ ih =>
    obtain ⟨q, inside, hq, -, rfl⟩ := hspan.exists_cons
    rcases (Text.Reached.string_iff hspan (by simp [hq])).1 houtside with heq | hrest
    · obtain ⟨rfl, -⟩ := List.cons.inj heq
      exact ne_of_isQuote hq
    · exact ih hrest

/-! ## Resolving -/

/-- The lines of selectors are clean. -/
def Resolved.isClean (resolved : Resolved) : Bool :=
  resolved.all fun line => line.all Selector.isClean

theorem Resolved.isClean_iff {resolved : Resolved} :
    resolved.isClean = true ↔ ∀ line ∈ resolved, ∀ t ∈ line, Selector.Closed t := by
  simp only [Resolved.isClean, List.all_eq_true, isClean_iff_closed]

/-- Resolving a rule in which every quote is closed against clean selectors gives clean
selectors. -/
theorem resolve_clean {texts : List Text} (htexts : ∀ t ∈ texts, (parse t).isTerminated = true)
    {outer : Option Resolved} (houter : ∀ ancestor, outer = some ancestor → ancestor.isClean = true)
    {resolved : Resolved} (h : resolve (texts.map parse) outer = some resolved) :
    resolved.isClean = true := by
  refine Resolved.isClean_iff.2 (closed_of_mem_resolve (List.forall_mem_map.2 ?_) ?_ h)
  · exact fun t ht => parse_closed ((terminated_iff t).2 (htexts t ht))
  · exact fun ancestor heq => Resolved.isClean_iff.1 (houter ancestor heq)

end Selector

/-- Every quoted span in the lines of the rule is terminated once they are
interpolated. -/
def Node.HasTerminatedSpans (env : Environment) (p : Rule × List Node) : Prop :=
  ∀ line ∈ p.1.lines, ∀ t, env.interpolate line = .ok t → (Selector.parse t).isTerminated = true

theorem Node.HasTerminatedSpans.hasTerminatedLines {env : Environment} {p : Rule × List Node}
    (h : HasTerminatedSpans env p) : HasTerminatedLines env p :=
  fun line hline t ht => (Selector.terminated_iff t).2 (h line hline t ht)

/-- **Selectors stay clean under nesting.**  A rule with terminated spans only, resolved
against clean selectors, gets clean selectors.  So if a sheet compiles in which every
span of the interpolated lines is terminated, then every selector of every rule of the
resolved tree is clean, at every depth; and no selector of the compiled sheet has a
marker or a comma outside of its quotes. -/
theorem selectors_stay_clean :
    (∀ (texts : List Text) (outer : Option Selector.Resolved) (resolved : Selector.Resolved),
      (∀ t ∈ texts, (Selector.parse t).isTerminated = true) →
      (∀ ancestor, outer = some ancestor → ancestor.isClean = true) →
        Selector.resolve (texts.map Selector.parse) outer = some resolved →
          resolved.isClean = true)
    ∧ (∀ (options : Options) (sheet flat : Sheet), sheet.compile options = .ok flat →
      (∀ p ∈ Node.rulesOf sheet.children, Node.HasTerminatedSpans options.environment p) →
        (∃ nodes, sheet.resolved options.environment = .ok nodes
          ∧ ∀ p ∈ Node.rulesOf nodes, ∃ resolved, p.1.resolved = some resolved
            ∧ resolved.isClean = true)
        ∧ ∀ t ∈ Node.selectorsOf flat.children, Selector.isClean t = true
          ∧ ∀ c rest, Text.OutsideQuotes t (c :: rest) → c ≠ Selector.parentMark ∧ c ≠ ',') := by
  refine ⟨fun texts outer resolved htexts houter h => Selector.resolve_clean htexts houter h,
    fun options sheet flat h hspans => ?_⟩
  have hquotes := fun p hp => (hspans p hp).hasTerminatedLines
  constructor
  · obtain ⟨nodes, hnodes, -⟩ := Sheet.compile_eq_ok.1 h
    refine ⟨nodes, hnodes, fun p hp => ?_⟩
    obtain ⟨resolved, heq, hclosed⟩ := closedSelectors_of_resolved hnodes hquotes p hp
    exact ⟨resolved, heq, Selector.Resolved.isClean_iff.2 fun line hline => (hclosed line hline).2⟩
  · intro t ht
    obtain ⟨p, hp, ht⟩ := List.mem_flatMap.1 ht
    obtain ⟨resolved, heq, hclosed⟩ := closedSelectors_of_compile h hquotes p hp
    rw [heq] at ht
    obtain ⟨line, hline, ht⟩ := List.mem_flatten.1 ht
    have ht := (hclosed line hline).2 t ht
    exact ⟨Selector.isClean_iff_closed.2 ht, fun c rest => ht.not_active⟩

/-- Strings with commas and markers in them, in a rule and in a rule that is put into it
twice. -/
theorem selectors_stay_clean_string :
    let string : Text := ['"', '&', ',', '"']
    let lines : List Text := ['a' :: string ++ [',', 'b'], '&' :: string ++ ['&']]
    let own : Node := .declaration { name := ['x'], value := ['y'] }
    let sheet : Sheet := { children :=
      [.rule { lines := lines.take 1 } [.rule { lines := lines.drop 1 } [own]]] }
    (∀ t ∈ lines, (Selector.parse t).isTerminated = true)
      ∧ ∃ flat, sheet.compile {} = .ok flat
        ∧ Node.selectorsOf flat.children
          = ['a' :: string ++ string ++ 'a' :: string, 'b' :: string ++ ['b']]
        ∧ ∀ t ∈ Node.selectorsOf flat.children, Selector.isClean t = true := by
  intro string lines own sheet
  have hterminated : ∀ t ∈ lines, (Selector.parse t).isTerminated = true :=
    List.forall_mem_cons.2 ⟨by cbv, List.forall_mem_singleton.2 (by cbv)⟩
  have hlines : (Node.rulesOf sheet.children).flatMap (fun p => p.1.lines) = lines := rfl
  have hspans : ∀ p ∈ Node.rulesOf sheet.children, Node.HasTerminatedSpans {} p := by
    intro p hp line hline t ht
    have hmem : line ∈ lines := by
      rw [← hlines]
      exact List.mem_flatMap.2 ⟨p, hp, hline⟩
    have hdollar : ∀ line ∈ lines, '$' ∉ line := by decide
    rw [interpolate_without_dollar {} (hdollar line hmem)] at ht
    cases ht
    exact hterminated line hmem
  have hcompile : ∃ flat, sheet.compile {} = .ok flat ∧ Node.selectorsOf flat.children
      = ['a' :: string ++ string ++ 'a' :: string, 'b' :: string ++ ['b']] :=
    ⟨_, by cbv, rfl⟩
  obtain ⟨flat, hflat, hselectors⟩ := hcompile
  obtain ⟨-, hclean⟩ := selectors_stay_clean.2 {} sheet flat hflat hspans
  exact ⟨hterminated, flat, hflat, hselectors, fun t ht => (hclean t ht).1⟩

/-- A comma at the end of a selector is dropped in reading, so that the selector is read
alone; it divides two alternatives once a rule is put behind it. -/
theorem resolve_behind_comma :
    Selector.readsAlone ['a', ','] = true
      ∧ (Selector.parse ['b']).isTerminated = true
      ∧ Selector.resolve [Selector.parse ['b']] (some [[['a', ',']]])
        = some [[['a', ',', ' ', 'b']]]
      ∧ Selector.readsAlone ['a', ',', ' ', 'b'] = false := by
  refine ⟨by cbv, by cbv, by cbv, by cbv⟩

end NestedSheet
