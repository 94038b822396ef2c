import NestedSheet.Proofs.Content
import NestedSheet.Proofs.Gathering
import NestedSheet.Proofs.Preludes
import NestedSheet.Proofs.Trim

/-!
# What values say

A declaration stores the text of its value, printed anew from the components and stripped
as a text.  Does the stored text still say what the components say?

The components of a value are read from a text, so they are well formed, and a function
that is called like a URL starts with a string (`wellFormed_clause`).  Printing keeps what
they say where the leaves are printed faithfully and no comment is missing between them
(`Component.areLegible`); stripping keeps it where it takes nothing off the text
(`Component.isTrim`).  Then the stored text says what the value says (`unplacedOf_value`).  A blank can also be
the end of an escape, though, and then the value is another one
(`unplacedOf_value_clipped`).
-/

namespace NestedSheet

open Component

namespace Lexeme

/-! ## Strings behind functions -/

theorem startsString_append {list : List Lexeme} (h : startsString list = true)
    (others : List Lexeme) : startsString (list ++ others) = true := by
  induction list with
  | nil => cases h
  | cons a list ih =>
    by_cases hgap : a.isGap = true
    · rw [startsString, List.cons_append, List.dropWhile_cons_of_pos hgap]
      rw [startsString, List.dropWhile_cons_of_pos hgap] at h
      exact ih h
    · rw [startsString, List.cons_append, List.dropWhile_cons_of_neg hgap]
      rwa [startsString, List.dropWhile_cons_of_neg hgap] at h

theorem quotesUrls_append {list others : List Lexeme} (h : quotesUrls (list ++ others) = true) :
    quotesUrls others = true := by
  induction list with
  | nil => exact h
  | cons a list ih => exact ih (Bool.and_eq_true_iff.1 h).2

/-- A function that is called like a URL has a quote behind it. -/
theorem startsQuote_of_next {c : Char} {cs name rest : Text} (h : next c cs = (.function name, rest))
    (hname : isNamed "url" name = true) : startsQuote (rest.dropWhile isSpace) = true := by
  cases scanned_of_next h with
  | name _ _ h =>
    cases h with
    | function _ hquote => exact hquote hname
  | number _ _ _ h => cases h
  | punctuation _ _ _ h => cases h

/-- What a quote starts is a string, or a broken one. -/
theorem isString_next {c : Char} (hc : Text.isQuote c = true) (cs : Text) :
    (next c cs).1.isString = true := by
  obtain ⟨value, ending, rest, hread⟩ : ∃ value ending rest,
      readString c cs = (value, ending, rest) := ⟨_, _, _, rfl⟩
  have hpunctuation := isPunctuation_of_isQuote hc
  cases ending with
  | closed => rw [(Punctuated.string hc hread).next_eq hpunctuation]; rfl
  | endOfText => rw [(Punctuated.openString hc hread).next_eq hpunctuation]; rfl
  | broken => rw [(Punctuated.badString hc hread).next_eq hpunctuation]; rfl

theorem isGap_of_isString {a : Lexeme} (h : a.isString = true) : a.isGap = false := by
  unfold isString at h
  split at h
  · rfl
  · rfl
  · cases h

/-- Where a quote is next, a string is read next. -/
theorem startsString_ofText {t : Text} (h : startsQuote (t.dropWhile isSpace) = true) :
    startsString ((Stretch.ofText t).map Stretch.lexeme) = true := by
  have hquote : ∀ {u : Text}, startsQuote u = true →
      startsString ((Stretch.ofText u).map Stretch.lexeme) = true := by
    intro u hu
    cases u with
    | nil => cases hu
    | cons c cs =>
      obtain ⟨v, rest, lexeme, -, hnext, hstretches⟩ := Stretch.exists_ofText_cons c cs
      have hstring := isString_next hu cs
      rw [hnext] at hstring
      rw [hstretches, List.map_cons, startsString,
        List.dropWhile_cons_of_neg (by simp [isGap_of_isString hstring])]
      exact hstring
  cases t with
  | nil => cases h
  | cons c cs =>
    by_cases hc : isSpace c = true
    · -- the whitespace before the quote is a lexeme of its own
      obtain ⟨v, rest, lexeme, -, hnext, hstretches⟩ := Stretch.exists_ofText_cons c cs
      rw [next, if_pos hc] at hnext
      obtain ⟨rfl, rfl⟩ := Prod.mk.inj hnext
      rw [List.dropWhile_cons_of_pos hc] at h
      rw [hstretches, List.map_cons, startsString, List.dropWhile_cons_of_pos rfl]
      exact hquote h
    · rw [List.dropWhile_cons_of_neg hc] at h
      exact hquote h

/-- **The lexemes of a normal text are well formed**, and strings are where functions
need them. -/
theorem wellFormed_ofText {t : Text} (hnormal : ∀ c ∈ t, isNormal c = true) :
    (∀ a ∈ Stretch.ofText t, a.lexeme.WellFormed)
      ∧ quotesUrls ((Stretch.ofText t).map Stretch.lexeme) = true := by
  induction t using Stretch.ofText.induct with
  | case1 =>
    rw [Stretch.ofText_nil]
    exact ⟨List.forall_mem_nil _, rfl⟩
  | case2 c cs step ih =>
    have hwell := wellFormed_of_next hnormal
    obtain ⟨u, rest, lexeme, rfl, hnext, hstretches⟩ := Stretch.exists_ofText_cons c cs
    rw [hnext] at hwell
    simp only [step, hnext] at ih
    obtain ⟨hrest, hquotes⟩ := ih fun d hd => hnormal d (by simp [hd])
    rw [hstretches, List.forall_mem_cons, List.map_cons, quotesUrls, Bool.and_eq_true]
    refine ⟨⟨hwell, hrest⟩, ?_, hquotes⟩
    cases lexeme with
    | function name =>
      rw [Bool.or_eq_true, Bool.not_eq_true']
      cases hname : isNamed "url" name with
      | false => exact Or.inl hname
      | true => exact Or.inr (startsString_ofText (startsQuote_of_next hnext hname))
    | _ => rfl

/-! ## The lexemes of components -/

theorem eq_of_kept? {p : Position} {lexeme : Lexeme} {x : Position × Lexeme}
    (h : kept? (p, lexeme) = some x) : x.2 = lexeme ∨ ∃ bracket, x.2 = .closing bracket := by
  cases lexeme with
  | comment text => cases h
  | closing bracket =>
    cases h
    exact Or.inl rfl
  | leaf l =>
    cases l with
    | unmatched bracket =>
      cases h
      exact Or.inr ⟨bracket, rfl⟩
    | _ =>
      cases h
      exact Or.inl rfl
  | _ =>
    cases h
    exact Or.inl rfl

/-- What components keep of lexemes has its strings where they were. -/
theorem startsString_kept {stretches : List Stretch} (p : Position)
    (h : startsString (stretches.map Stretch.lexeme) = true) :
    startsString (((Stretch.located p stretches).filterMap kept?).map Prod.snd) = true := by
  induction stretches generalizing p with
  | nil => cases h
  | cons a stretches ih =>
    rw [List.map_cons] at h
    by_cases hgap : a.lexeme.isGap = true
    · obtain ⟨t, ht⟩ := exists_whitespace hgap
      rw [startsString, List.dropWhile_cons_of_pos hgap] at h
      have hkept : kept? (p, a.lexeme) = some (p, .leaf (.whitespace t)) := by
        rw [ht]
        rfl
      rw [Stretch.located, List.filterMap_cons_some hkept, List.map_cons, startsString,
        List.dropWhile_cons_of_pos rfl]
      exact ih _ h
    · rw [startsString, List.dropWhile_cons_of_neg hgap] at h
      have hstring : a.lexeme.isString = true := h
      unfold isString at hstring
      split at hstring
      · next hlexeme => rw [Stretch.located, hlexeme]; rfl
      · next hlexeme => rw [Stretch.located, hlexeme]; rfl
      · cases hstring

theorem quotesUrls_kept {stretches : List Stretch} (p : Position)
    (h : quotesUrls (stretches.map Stretch.lexeme) = true) {others : List Lexeme}
    (hothers : quotesUrls others = true) :
    quotesUrls (((Stretch.located p stretches).filterMap kept?).map Prod.snd ++ others) = true := by
  induction stretches generalizing p with
  | nil => exact hothers
  | cons a stretches ih =>
    rw [List.map_cons, quotesUrls, Bool.and_eq_true] at h
    have hrest := ih (p.after a.text) h.2
    rw [Stretch.located, List.filterMap_cons]
    split
    · exact hrest
    · next x hx =>
      rw [List.map_cons, List.cons_append, quotesUrls, hrest, Bool.and_true]
      rcases eq_of_kept? hx with heq | ⟨bracket, hclosing⟩
      · have hstring := h.1
        rw [Bool.or_eq_true] at hstring ⊢
        rw [heq]
        exact hstring.imp_right fun hstring =>
          startsString_append (startsString_kept _ hstring) others
      · rw [hclosing]
        rfl

theorem quotesUrls_closing {list : List (Position × Lexeme)} (h : AreClosing list) :
    quotesUrls (list.map Prod.snd) = true := by
  induction list with
  | nil => rfl
  | cons x list ih =>
    obtain ⟨hx, hlist⟩ := List.forall_mem_cons.1 h
    obtain ⟨bracket, hx⟩ := hx
    rw [List.map_cons, quotesUrls, hx, ih hlist]
    rfl

end Lexeme

namespace Component

/-- The lexemes of the components of a normal text are well formed, and strings are where
functions need them. -/
theorem wellFormed_sequence {t : Text} (hnormal : ∀ c ∈ t, isNormal c = true) :
    (∀ a ∈ sequence (ofText t), a.WellFormed) ∧ Lexeme.quotesUrls (sequence (ofText t)) = true := by
  obtain ⟨hwell, hquoted⟩ := Lexeme.wellFormed_ofText hnormal
  obtain ⟨missing, hmissing, hlexemes⟩ := lexemesOf_ofText t
  rw [sequence, hlexemes, List.map_append]
  refine ⟨fun a ha => ?_, Lexeme.quotesUrls_kept {} hquoted (Lexeme.quotesUrls_closing hmissing)⟩
  rcases List.mem_append.1 ha with ha | ha
  · obtain ⟨x, hx, rfl⟩ := List.mem_map.1 ha
    obtain ⟨⟨p, lexeme⟩, hmem, hkept⟩ := List.mem_filterMap.1 hx
    rcases Lexeme.eq_of_kept? hkept with heq | ⟨bracket, hclosing⟩
    · have hlexeme : lexeme ∈ (Stretch.ofText t).map Stretch.lexeme := by
        rw [← Stretch.map_snd_located {}]
        exact List.mem_map.2 ⟨_, hmem, rfl⟩
      obtain ⟨b, hb, rfl⟩ := List.mem_map.1 hlexeme
      rw [heq]
      exact hwell b hb
    · rw [hclosing]
      trivial
  · obtain ⟨x, hx, rfl⟩ := List.mem_map.1 ha
    obtain ⟨bracket, hclosing⟩ := hmissing x hx
    rw [hclosing]
    trivial

/-- The arguments of a function that is called like a URL start with a string, whatever
follows it. -/
theorem startsString_closing {list : List Lexeme} {bracket : Bracket} {rest others : List Lexeme}
    (h : Lexeme.startsString (list ++ .closing bracket :: rest) = true) :
    Lexeme.startsString (list ++ .closing bracket :: others) = true := by
  induction list with
  | nil => cases h
  | cons a list ih =>
    rw [List.cons_append, Lexeme.startsString] at h ⊢
    by_cases hgap : a.isGap = true
    · rw [List.dropWhile_cons_of_pos hgap] at h ⊢
      exact ih h
    · rw [List.dropWhile_cons_of_neg hgap] at h ⊢
      exact h

theorem quotesUrls_sequence : ∀ {components : List Component} {rest others : List Lexeme},
    Lexeme.quotesUrls (sequence components ++ rest) = true → Lexeme.quotesUrls others = true →
      Lexeme.quotesUrls (sequence components ++ others) = true
  | [], rest, others, _, hothers => hothers
  | leaf p l :: cs, rest, others, h, hothers => by
    obtain ⟨a, ha, hurl⟩ : ∃ a, sequence [leaf p l] = [a] ∧ a.isUrl = false := by
      cases l <;> exact ⟨_, rfl, rfl⟩
    rw [sequence_cons, ha, List.append_assoc, List.singleton_append, Lexeme.quotesUrls, hurl] at h ⊢
    exact quotesUrls_sequence h hothers
  | function p name arguments :: cs, rest, others, h, hothers => by
    rw [sequence_cons, List.append_assoc, sequence_function, Lexeme.quotesUrls, Bool.and_eq_true] at h ⊢
    have hcs : Lexeme.quotesUrls (sequence cs ++ rest) = true :=
      (Bool.and_eq_true_iff.1 (Lexeme.quotesUrls_append h.2)).2
    refine ⟨?_, quotesUrls_sequence h.2 ?_⟩
    · have hfirst := h.1
      rw [Bool.or_eq_true] at hfirst ⊢
      exact hfirst.imp_right startsString_closing
    · rw [Lexeme.quotesUrls, quotesUrls_sequence hcs hothers]
      rfl
  | block p bracket content :: cs, rest, others, h, hothers => by
    rw [sequence_cons, List.append_assoc, sequence_block, Lexeme.quotesUrls, Bool.and_eq_true] at h ⊢
    have hcs : Lexeme.quotesUrls (sequence cs ++ rest) = true :=
      (Bool.and_eq_true_iff.1 (Lexeme.quotesUrls_append h.2)).2
    refine ⟨rfl, quotesUrls_sequence h.2 ?_⟩
    rw [Lexeme.quotesUrls, quotesUrls_sequence hcs hothers]
    rfl

/-! ## The lexemes of a value -/

/-- Components whose lexemes stand among well-formed ones are well formed themselves. -/
theorem wellFormed_among {components : List Component} {before after : List Lexeme}
    (hwell : ∀ a ∈ before ++ (sequence components ++ after), a.WellFormed)
    (hquoted : Lexeme.quotesUrls (before ++ (sequence components ++ after)) = true) :
    (∀ a ∈ sequence components, a.WellFormed) ∧ Lexeme.quotesUrls (sequence components) = true := by
  refine ⟨fun a ha => hwell a (by simp [ha]), ?_⟩
  have hself := @quotesUrls_sequence components _ [] (Lexeme.quotesUrls_append hquoted) rfl
  rwa [List.append_nil] at hself

/-- The clauses of a normal text are well formed. -/
theorem wellFormed_clause {t : Text} (hnormal : ∀ c ∈ t, isNormal c = true) {clause : Clause}
    (h : clause ∈ clauses [] (ofText t)) :
    (∀ a ∈ sequence clause.components, a.WellFormed)
      ∧ Lexeme.quotesUrls (sequence clause.components) = true := by
  obtain ⟨hwell, hquoted⟩ := wellFormed_sequence hnormal
  obtain ⟨-, before, spaces, after, -, hstands⟩ := standsIn_clauses h
  rw [List.nil_append] at hstands
  rw [sequence, hstands, List.map_append, List.map_append] at hwell hquoted
  exact wellFormed_among hwell hquoted

/-- A value is a part of the components of its declaration. -/
theorem exists_value {components : List Component} {parts : DeclarationParts}
    (h : readDeclaration components = .ok parts) :
    ∃ before after, components = before ++ (parts.value ++ after) := by
  have hsplit : ∀ value, ∃ after, value = (splitImportant value).1 ++ after := by
    intro value
    unfold splitImportant
    split
    · exact ⟨_, (List.take_append_drop _ value).symm⟩
    · exact ⟨[], (List.append_nil value).symm⟩
  have hdrop : ∀ {list rest : List Component}, list.dropWhile isWhitespace = rest →
      ∃ lead, list = lead ++ rest := by
    rintro list rest rfl
    exact ⟨_, List.takeWhile_append_dropWhile.symm⟩
  unfold readDeclaration at h
  split at h
  · cases h
  · -- the name, the colon and the value follow one another, with whitespace between them
    next p name rest hrest =>
    obtain ⟨lead, rfl⟩ := hdrop hrest
    split at h
    · cases h
    · next colon value hvalue =>
      obtain ⟨gap, rfl⟩ := hdrop hvalue
      split at h
      · cases h
        obtain ⟨after, hafter⟩ := hsplit value
        exact ⟨lead ++ leaf p (.ident name) :: (gap ++ [colon]), after, by
          conv_lhs => rw [hafter]
          simp⟩
      · cases h
  · cases h

/-! ## Stripping -/

/-- Are the components runs of blank characters only? -/
def AreBlank (components : List Component) : Prop :=
  ∀ c ∈ components, ∃ p t, c = leaf p (.whitespace t) ∧ ∀ d ∈ t, Text.isBlank d = true

theorem areBlank_of_isWhitespace {components : List Component}
    (h : ∀ c ∈ components, c.isWhitespace = true) (hwell : ∀ a ∈ sequence components, a.WellFormed) :
    AreBlank components := by
  intro c hc
  have hspace := h c hc
  unfold isWhitespace at hspace
  split at hspace
  · next p t =>
    obtain ⟨init, rest, rfl⟩ := List.append_of_mem hc
    rw [sequence_append, sequence_cons, sequence_leaf p rfl] at hwell
    have ht : Lexeme.WellFormed (.leaf (.whitespace t)) := hwell _ (by simp)
    exact ⟨p, t, rfl, fun d hd => isBlank_of_isSpace (ht.2 d hd)⟩
  · cases hspace

theorem between?_whitespace (previous : Option Edge) (t : Text) :
    ∀ d ∈ between? previous (.whitespace t), Text.isBlank d = true := by
  cases previous with
  | none => exact List.forall_mem_nil _
  | some e =>
    rw [between?, Edge.between, Lexeme.clash_whitespace]
    split
    · next hfalse => cases hfalse
    · split
      · exact List.forall_mem_singleton.2 rfl
      · exact List.forall_mem_nil _

/-- Whitespace behind components is printed as blanks. -/
theorem printAfter_trail {components : List Component} (h : AreBlank components) :
    ∀ previous, ∀ d ∈ printAfter previous components, Text.isBlank d = true := by
  induction components with
  | nil =>
    intro previous
    rw [printAfter]
    exact List.forall_mem_nil _
  | cons c cs ih =>
    intro previous
    obtain ⟨hc, hcs⟩ := List.forall_mem_cons.1 h
    obtain ⟨p, t, rfl, ht⟩ := hc
    rw [printAfter_cons, print_whitespace, List.forall_mem_append, List.forall_mem_append]
    exact ⟨⟨between?_whitespace previous t, ht⟩, ih hcs _⟩

/-- Whitespace before components is printed as blanks, and they start anew behind it. -/
theorem printAfter_lead {lead : List Component} (h : AreBlank lead) (components : List Component) :
    ∀ {previous : Option Edge}, (∀ e, between? previous e = []) →
      ∃ blank, (∀ d ∈ blank, Text.isBlank d = true)
        ∧ printAfter previous (lead ++ components) = blank ++ printAfter none components := by
  induction lead with
  | nil =>
    intro previous hprevious
    refine ⟨[], List.forall_mem_nil _, ?_⟩
    rw [List.nil_append, List.nil_append]
    cases components with
    | nil => rw [printAfter, printAfter]
    | cons c cs => rw [printAfter_cons, printAfter_cons, hprevious]; rfl
  | cons c lead ih =>
    intro previous hprevious
    obtain ⟨hc, hlead⟩ := List.forall_mem_cons.1 h
    obtain ⟨p, t, rfl, ht⟩ := hc
    obtain ⟨blank, hblank, heq⟩ := @ih hlead (some (.whitespace t)) (between_whitespace t)
    refine ⟨t ++ blank, List.forall_mem_append.2 ⟨ht, hblank⟩, ?_⟩
    rw [List.cons_append, printAfter_cons, hprevious, print_whitespace, List.nil_append,
      List.append_assoc]
    exact congrArg (t ++ ·) heq

theorem printAfter_append (components others : List Component) : ∀ previous, ∃ e,
    printAfter previous (components ++ others)
      = printAfter previous components ++ printAfter e others := by
  induction components with
  | nil =>
    intro previous
    exact ⟨previous, by rw [printAfter]; rfl⟩
  | cons c cs ih =>
    intro previous
    obtain ⟨e, he⟩ := ih (some c.edge)
    exact ⟨e, by rw [List.cons_append, printAfter_cons, printAfter_cons, he, List.append_assoc,
      List.append_assoc, List.append_assoc]⟩

end Component

theorem Text.strip_blanks {before after : Text} (hbefore : ∀ c ∈ before, isBlank c = true)
    (hafter : ∀ c ∈ after, isBlank c = true) (t : Text) : strip (before ++ (t ++ after)) = strip t := by
  rw [strip, strip, stripStart, stripStart, List.dropWhile_append_of_pos hbefore, List.dropWhile_append]
  split
  · next hempty =>
    rw [List.isEmpty_iff] at hempty
    rw [hempty, List.dropWhile_eq_nil_iff.2 hafter]
  · exact dropEndWhile_append_all hafter _

namespace Component

/-- Stripping the text of components strips them of their whitespace first. -/
theorem strip_printAll {components : List Component}
    (hwell : ∀ a ∈ sequence components, a.WellFormed) :
    Text.strip (printAll components) = Text.strip (printAll (strip components)) := by
  obtain ⟨lead, trail, hsplit, hlead, htrail, -⟩ := exists_strip components
  rw [hsplit, sequence_append, sequence_append] at hwell
  have hlead' := areBlank_of_isWhitespace hlead fun a ha => hwell a (by simp [ha])
  have htrail' := areBlank_of_isWhitespace htrail fun a ha => hwell a (by simp [ha])
  obtain ⟨blank, hblank, hstart⟩ := @printAfter_lead lead hlead' (strip components ++ trail) none
    fun _ => rfl
  obtain ⟨e, hend⟩ := printAfter_append (strip components) trail none
  have hprint : printAll components = blank ++ (printAll (strip components) ++ printAfter e trail) := by
    conv_lhs => rw [hsplit, printAll, hstart, hend]
    rfl
  rw [hprint, Text.strip_blanks hblank (printAfter_trail htrail' e)]

/-- Does stripping the text of the components take nothing off it? -/
def isTrim (components : List Component) : Bool :=
  Text.strip (printAll components) == printAll components

end Component

/-! ## What values say -/

/-- **Values keep what they say.**  Every declaration stores a text that says what the
components of its value say, up to whitespace at the ends and dropped comments, if these
have no fault, are printed legibly, and no character is stripped from their text. -/
theorem unplacedOf_value {path : Option Text} {t : Text} {sheet : Sheet}
    (h : Sheet.read path t = .ok sheet) :
    List.Forall₂ (fun clause node => ∀ d, node = .declaration d →
        ∃ parts, readDeclaration clause.components = .ok parts ∧
          (areFaultless parts.value = true →
            areLegible (gatherAll (strip parts.value)) = true → isTrim (strip parts.value) = true →
              unplacedOf (Component.ofText (normalizeNewlines d.value))
                = unplacedOf (gatherAll (strip parts.value))))
      (clauses [] (Component.ofText (Source.ofText path t).text)) (Node.inOrderOf sheet.children) := by
  have hread := (List.forall₂_and_left _ _).2 ⟨fun _ hclause => hclause, Sheet.read_clauses h⟩
  refine hread.imp ?_
  rintro clause node ⟨hclause, hnode⟩ d rfl
  cases hnode with
  | @declaration first rest ending parts hparts =>
  refine ⟨parts, hparts, fun hfault hlegible htrim => ?_⟩
  -- the value is a part of the source, and what is left of it is a part of the value
  obtain ⟨before, after, hsplit⟩ := exists_value hparts
  obtain ⟨lead, trail, hstrip, -⟩ := exists_strip parts.value
  obtain ⟨hwell, hquoted⟩ := wellFormed_clause isNormal_normalizeNewlines hclause
  rw [hsplit, sequence_append, sequence_append] at hwell hquoted
  obtain ⟨hvalue, hquoted⟩ := wellFormed_among hwell hquoted
  have hwell' := hvalue
  rw [hstrip, sequence_append, sequence_append] at hwell' hquoted
  obtain ⟨hwell', hquoted⟩ := wellFormed_among hwell' hquoted
  have hfault' : areFaultless (strip parts.value) = true := by
    rw [areFaultless_iff] at hfault ⊢
    intro c hc
    exact hfault c (by rw [hstrip]; simp [hc])
  -- so its text is read back
  have hnormal := isNormal_printAll hfault' hwell' hquoted hlegible
  rw [strip_printAll hvalue, eq_of_beq htrim, normalizeNewlines_eq_self hnormal]
  exact unplacedOf_printAll hfault' hwell' hquoted hlegible

/-- A value with an escape, a comment that is dropped and one that is put between its
components. -/
theorem unplacedOf_value_escaped :
    ∃ sheet clause first second node d parts,
      Sheet.read none "a\x7bb: c\\31 /**/d(1px) !important\x7d".toList = .ok sheet
      ∧ clauses [] (Component.ofText
          (Source.ofText none "a\x7bb: c\\31 /**/d(1px) !important\x7d".toList).text) = [first, clause]
      ∧ Node.inOrderOf sheet.children = [second, node] ∧ node = .declaration d
      ∧ readDeclaration clause.components = .ok parts ∧ areFaultless parts.value = true
      ∧ areLegible (gatherAll (strip parts.value)) = true ∧ isTrim (strip parts.value) = true
      ∧ d.value = "c1/**/d(1px)".toList
      ∧ unplacedOf (Component.ofText (normalizeNewlines d.value))
        = unplacedOf (gatherAll (strip parts.value)) := by
  have hread : Sheet.read none "a\x7bb: c\\31 /**/d(1px) !important\x7d".toList = .ok { children :=
      [.rule { lines := [['a']], origin := ⟨some 1, none⟩ } [.declaration
        { name := ['b'], value := "c1/**/d(1px)".toList, important := true
          origin := ⟨some 1, none⟩ }]] } := by decide +kernel
  -- the declaration is the last clause of the block
  have hclauses : clauses [] (Component.ofText
      (Source.ofText none "a\x7bb: c\\31 /**/d(1px) !important\x7d".toList).text)
      = [⟨[.leaf {} (.ident ['a'])], .block ⟨1, 2⟩⟩, ⟨[.leaf ⟨1, 3⟩ (.ident ['b']),
          .leaf ⟨1, 4⟩ (.literal [':']), .leaf ⟨1, 5⟩ (.whitespace [' ']),
          .leaf ⟨1, 6⟩ (.ident ['c', '1']),
          .function ⟨1, 15⟩ ['d'] [.leaf ⟨1, 17⟩ (.dimension ['1'] ['p', 'x'])],
          .leaf ⟨1, 21⟩ (.whitespace [' ']), .leaf ⟨1, 22⟩ (.literal ['!']),
          .leaf ⟨1, 23⟩ (.ident "important".toList)], .nothing⟩] := by decide +kernel
  have hvalues := unplacedOf_value hread
  rw [hclauses] at hvalues
  obtain ⟨-, hrest⟩ := List.forall₂_cons.1 hvalues
  obtain ⟨hsecond, -⟩ := List.forall₂_cons.1 hrest
  obtain ⟨parts, hparts, hkept⟩ := hsecond _ rfl
  have hvalue : Except.ok ⟨['b'], [.leaf ⟨1, 5⟩ (.whitespace [' ']), .leaf ⟨1, 6⟩ (.ident ['c', '1']),
      .function ⟨1, 15⟩ ['d'] [.leaf ⟨1, 17⟩ (.dimension ['1'] ['p', 'x'])],
      .leaf ⟨1, 21⟩ (.whitespace [' '])], true⟩ = Except.ok parts := hparts
  obtain rfl := Except.ok.inj hvalue
  refine ⟨_, _, _, _, _, _, _, hread, hclauses, rfl, rfl, hparts, ?fault, ?legible, ?trim, rfl,
    hkept ?fault ?legible ?trim⟩
  all_goals decide +kernel

/-- The blank at the end of a value can belong to an escape, but it is stripped: `c\ `
becomes `c\`, with no fault in the source. -/
theorem unplacedOf_value_clipped :
    ∃ sheet clause first third second node other d parts,
      Sheet.read none "a\x7bb:c\\ ;d:e\x7d".toList = .ok sheet
      ∧ clauses [] (Component.ofText (Source.ofText none "a\x7bb:c\\ ;d:e\x7d".toList).text)
        = [first, clause, third]
      ∧ Node.inOrderOf sheet.children = [second, node, other] ∧ node = .declaration d
      ∧ readDeclaration clause.components = .ok parts ∧ areFaultless parts.value = true
      ∧ d.value = "c\\".toList
      ∧ unplacedOf (strip (Component.ofText (normalizeNewlines d.value)))
        ≠ unplacedOf (strip parts.value) := by
  have hread : Sheet.read none "a\x7bb:c\\ ;d:e\x7d".toList = .ok { children :=
      [.rule { lines := [['a']], origin := ⟨some 1, none⟩ }
        [.declaration { name := ['b'], value := "c\\".toList, origin := ⟨some 1, none⟩ },
          .declaration { name := ['d'], value := ['e'], origin := ⟨some 1, none⟩ }]] } := by
    decide +kernel
  have hclauses : clauses [] (Component.ofText (Source.ofText none "a\x7bb:c\\ ;d:e\x7d".toList).text)
      = [⟨[.leaf {} (.ident ['a'])], .block ⟨1, 2⟩⟩,
        ⟨[.leaf ⟨1, 3⟩ (.ident ['b']), .leaf ⟨1, 4⟩ (.literal [':']), .leaf ⟨1, 5⟩ (.ident ['c', ' '])],
          .semicolon ⟨1, 8⟩⟩,
        ⟨[.leaf ⟨1, 9⟩ (.ident ['d']), .leaf ⟨1, 10⟩ (.literal [':']), .leaf ⟨1, 11⟩ (.ident ['e'])],
          .nothing⟩] := by decide +kernel
  refine ⟨_, _, _, _, _, _, _, _, ⟨['b'], [.leaf ⟨1, 5⟩ (.ident ['c', ' '])], false⟩, hread, hclauses,
    rfl, rfl, rfl, rfl, rfl, ?_⟩
  decide +kernel

end NestedSheet
