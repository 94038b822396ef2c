import NestedSheet.Proofs.Words
import NestedSheet.Selector.Parse
import NestedSheet.Source.Read

/-!
# Selectors in their text

The selectors of a rule are written as lines of phrases with commas between them,
and a comma at the end of every line but the last one.  The text before a block is
divided into the same lines again, and each of them is read as its phrases.

Main results:

* `Selector.parse_intercalate` — a line of phrases, with or without a comma at its end.
* `selectorLines_intercalate` — the lines of a text.
* `map_parse_selectorLines` — the phrases of the lines of a text.
* `removeComments_written` — the text has no comments.
-/

namespace NestedSheet

/-! ## Texts with separators -/

theorem intercalate_append (sep : Text) {texts others : List Text} (htexts : texts ≠ [])
    (hothers : others ≠ []) :
    sep.intercalate (texts ++ others) = sep.intercalate texts ++ sep ++ sep.intercalate others := by
  induction texts with
  | nil => exact absurd rfl htexts
  | cons t texts ih =>
    cases texts with
    | nil => rw [List.singleton_append, List.intercalate_cons_of_ne_nil hothers,
        List.intercalate_singleton]
    | cons u texts =>
      rw [List.cons_append, List.cons_append, List.intercalate_cons_cons,
        List.intercalate_cons_cons, ← List.cons_append, ih nofun]
      simp only [List.append_assoc]

/-- Lines that are joined like the texts in them are one line. -/
theorem intercalate_flatten (sep : Text) {lines : List (List Text)}
    (hlines : ∀ line ∈ lines, line ≠ []) :
    sep.intercalate (lines.map fun line => sep.intercalate line)
      = sep.intercalate lines.flatten := by
  induction lines with
  | nil => rfl
  | cons line lines ih =>
    obtain ⟨hline, hrest⟩ := List.forall_mem_cons.1 hlines
    cases lines with
    | nil => simp
    | cons next lines =>
      have hnext : (next :: lines).flatten ≠ [] := by
        simp [hrest next List.mem_cons_self]
      rw [List.flatten_cons, intercalate_append sep hline hnext, ← ih hrest, List.map_cons,
        List.map_cons, List.intercalate_cons_cons]

namespace Text

theorem mem_intercalate {sep : Text} {texts : List Text} {c : Char}
    (h : c ∈ sep.intercalate texts) : c ∈ sep ∨ ∃ t ∈ texts, c ∈ t := by
  induction texts with
  | nil => simp at h
  | cons t texts ih =>
    cases texts with
    | nil => exact Or.inr ⟨t, List.mem_cons_self, by simpa using h⟩
    | cons u texts =>
      rw [List.intercalate_cons_cons, List.mem_append, List.mem_append] at h
      rcases h with (h | h) | h
      · exact Or.inr ⟨t, List.mem_cons_self, h⟩
      · exact Or.inl h
      · rcases ih h with h | ⟨v, hv, h⟩
        · exact Or.inl h
        · exact Or.inr ⟨v, List.mem_cons_of_mem t hv, h⟩

theorem Trimmed.head?_append {t : Text} (ht : Trimmed t) (rest : Text) :
    (t ++ rest).head?.any (fun c => !isBlank c) = true := by
  have hfirst := ht.first
  cases t with
  | nil => cases hfirst
  | cons c cs => exact hfirst

theorem Trimmed.append {t u : Text} (ht : Trimmed t) (between : Text) (hu : Trimmed u) :
    Trimmed (t ++ between ++ u) := by
  constructor
  · rw [List.append_assoc]
    exact ht.head?_append (between ++ u)
  · have hlast := hu.last
    cases u with
    | nil => cases hlast
    | cons c cs =>
      rw [List.getLast?_append_of_ne_nil _ (List.cons_ne_nil c cs)]
      exact hlast

theorem trimmed_intercalate (sep : Text) {texts : List Text} (hne : texts ≠ [])
    (htexts : ∀ t ∈ texts, Trimmed t) : Trimmed (sep.intercalate texts) := by
  induction texts with
  | nil => exact absurd rfl hne
  | cons t texts ih =>
    obtain ⟨ht, hrest⟩ := List.forall_mem_cons.1 htexts
    cases texts with
    | nil => simpa using ht
    | cons u texts =>
      rw [List.intercalate_cons_cons]
      exact ht.append sep (ih nofun hrest)

end Text

/-! ## Comments -/

/-- A text without quotes and slashes has no comments. -/
theorem removeComments_written {t : Text} (h : ∀ c ∈ t, Text.isWritten c = true) :
    removeComments t = t := by
  induction t with
  | nil => rw [removeComments]
  | cons c cs ih =>
    obtain ⟨hc, hcs⟩ := List.forall_mem_cons.1 h
    -- neither a quoted span nor a comment starts with the character
    have hquote : Text.isQuote c = false := by
      simp [Text.isQuote, Text.ne_of_isWritten hc (show Text.isWritten '"' = false by decide),
        Text.ne_of_isWritten hc (show Text.isWritten '\'' = false by decide)]
    have hslash : c ≠ '/' := Text.ne_of_isWritten hc (by decide)
    have hspan : Text.completeSpan? (c :: cs) = none := by
      rw [Text.completeSpan?, if_neg (by simp [hquote])]
    have hcomment : afterComment? (c :: cs) = none := by
      unfold afterComment?
      split <;> simp_all
    rw [removeComments, commentStep, hspan]
    simp only [hcomment]
    rw [ih hcs, List.singleton_append]

/-! ## Reading a line -/

namespace Selector

/-- The characters of a phrase are plain text of a selector. -/
theorem items_phrase {t : Text} (h : ∀ c ∈ t, c.isLower = true ∨ c = ' ') (rest : Text) :
    items (t ++ rest) = t.map (fun c => Item.token (.literal [c])) ++ items rest := by
  induction t with
  | nil => rfl
  | cons c cs ih =>
    obtain ⟨hc, hcs⟩ := List.forall_mem_cons.1 h
    -- the character is none of those that selectors treat apart
    have hne : ∀ d : Char, d.isLower = false → d ≠ ' ' → c ≠ d := by
      intro d hd hspace
      rcases hc with hc | rfl
      · exact Text.ne_of_isLower hc hd
      · exact hspace.symm
    have hquote : Text.isQuote c = false := by
      simp [Text.isQuote, hne '"' rfl (by decide), hne '\'' rfl (by decide)]
    rw [List.cons_append, items, if_neg (hne parentMark rfl (by decide)),
      if_neg (hne ',' rfl (by decide)), if_neg (by simp [hquote]), ih hcs]
    rfl

/-- A comma divides what stands before it from what stands behind the gap after it. -/
theorem items_comma {gap rest : Text} (hgap : Spacing gap)
    (hrest : rest.head?.any (fun c => !Text.isBlank c) = true) :
    items (',' :: (gap ++ rest)) = .comma :: items rest := by
  cases rest with
  | nil => cases hrest
  | cons c cs =>
    have hc : Text.isBlank c = false := by simpa using hrest
    have hskip : Text.stripStart (gap ++ c :: cs) = c :: cs := by
      rw [Text.stripStart, List.dropWhile_append_of_pos hgap.isBlank, List.dropWhile_cons,
        if_neg (by simp [hc])]
    rw [items, if_neg (by decide), if_pos rfl, hskip, if_neg (by simp)]

theorem items_lastComma : items [','] = [] := by
  rw [items]
  rfl

/-- A list of phrases with commas between them is divided at the commas. -/
theorem divide_tokens (tokens : Alternative) (rest : List Item) :
    divide (tokens.map Item.token ++ .comma :: rest) = tokens :: divide rest
      ∧ divide (tokens.map Item.token) = [tokens] := by
  induction tokens with
  | nil => exact ⟨rfl, rfl⟩
  | cons token tokens ih =>
    constructor
    · rw [List.map_cons, List.cons_append, divide, ih.1]
    · rw [List.map_cons, divide, ih.2]

theorem merge_characters {t : Text} (ht : t ≠ []) :
    Alternative.merge (t.map fun c => .literal [c]) = [.literal t] := by
  induction t with
  | nil => exact absurd rfl ht
  | cons c cs ih =>
    rw [List.map_cons, Alternative.merge]
    cases cs with
    | nil => rfl
    | cons d ds =>
      rw [ih nofun]
      rfl

/-- A line of phrases is read as its phrases, with or without a comma at its end. -/
theorem parse_intercalate {gap : Text} (hgap : Spacing gap) {texts : List Text}
    (hne : texts ≠ []) (htexts : ∀ t ∈ texts, Text.isPhrase t = true) {ending : Text}
    (hending : ending = [] ∨ ending = [',']) :
    parse ((',' :: gap).intercalate texts ++ ending) = texts.map fun t => [.literal t] := by
  have hmap : ∀ t : Text, t.map (fun c => Item.token (.literal [c]))
      = (t.map fun c => Token.literal [c]).map Item.token := by
    intro t
    rw [List.map_map]
    rfl
  induction texts with
  | nil => exact absurd rfl hne
  | cons t texts ih =>
    obtain ⟨ht, hrest⟩ := List.forall_mem_cons.1 htexts
    have hitems := items_phrase fun c => Text.mem_phrase ht
    have hmerge : Alternative.merge (t.map fun c => .literal [c]) = [.literal t] := by
      obtain ⟨⟨c, cs, rfl, -⟩, -⟩ := Text.isPhrase_ends ht
      exact merge_characters nofun
    cases texts with
    | nil =>
      have hend : items ending = [] := by
        rcases hending with rfl | rfl
        · rw [items]
        · exact items_lastComma
      rw [List.intercalate_singleton, parse, hitems, hend, List.append_nil, hmap,
        (divide_tokens _ []).2, List.map_singleton, hmerge]
      rfl
    | cons u texts =>
      have htrimmed : Text.Trimmed ((',' :: gap).intercalate (u :: texts)) :=
        Text.trimmed_intercalate _ nofun fun v hv => Text.trimmed_of_isPhrase (hrest v hv)
      -- the comma after the first phrase divides it from the rest of the line
      have hcomma := items_comma hgap (htrimmed.head?_append ending)
      rw [List.intercalate_cons_cons, List.append_assoc, List.append_assoc, parse, hitems,
        List.cons_append, hcomma, hmap, (divide_tokens _ _).1, List.map_cons, hmerge]
      exact congrArg ([.literal t] :: ·) (ih nofun hrest)

end Selector

/-! ## Dividing a text into lines -/

/-- The lines of selectors as they stand in a text: each but the last one ends with
a comma. -/
def commaLines : List Text → List Text
  | [] => []
  | [line] => [line]
  | line :: next :: lines => (line ++ [',']) :: commaLines (next :: lines)

/-- A line and what stands on the lines after it. -/
theorem strippedLines_append {t line rest : Text} (ht : '\n' ∉ t) (hline : Text.strip t = line)
    (hne : line ≠ []) :
    Text.strippedLines (t ++ '\n' :: rest) = line :: Text.strippedLines rest := by
  rw [Text.strippedLines, Text.cut_append ht, List.map_cons, hline,
    List.filter_cons_of_pos (by simpa using hne)]
  rfl

theorem strippedLines_single {t line : Text} (ht : '\n' ∉ t) (hline : Text.strip t = line)
    (hne : line ≠ []) : Text.strippedLines t = [line] := by
  rw [Text.strippedLines, Text.cut_single ht, List.map_singleton, hline,
    List.filter_cons_of_pos (by simpa using hne)]
  rfl

theorem newline_not_mem_indent (depth : Int) : '\n' ∉ Text.indent depth := by
  intro h
  cases List.eq_of_mem_replicate h

/-- The lines of a text in which indented lines have commas between them. -/
theorem strippedLines_intercalate (depth : Int) {lines : List Text} (hne : lines ≠ [])
    (hlines : ∀ line ∈ lines, Text.Trimmed line ∧ '\n' ∉ line) (lead : Text)
    (hlead : lead = [] ∨ lead = Text.indent depth) :
    Text.strippedLines (lead ++ (',' :: '\n' :: Text.indent depth).intercalate lines)
      = commaLines lines := by
  have hblank : ∀ c ∈ lead, Text.isBlank c = true := by
    rcases hlead with rfl | rfl
    · simp
    · exact (Spacing.indent depth).isBlank
  have hnewline : '\n' ∉ lead := by
    rcases hlead with rfl | rfl
    · simp
    · exact newline_not_mem_indent depth
  induction lines generalizing lead with
  | nil => exact absurd rfl hne
  | cons line lines ih =>
    obtain ⟨⟨htrimmed, hline⟩, hrest⟩ := List.forall_mem_cons.1 hlines
    cases lines with
    | nil =>
      rw [List.intercalate_singleton]
      exact strippedLines_single (by simp [hnewline, hline]) (htrimmed.strip_lead hblank)
        htrimmed.ne_nil
    | cons next lines =>
      have hcomma : Text.Trimmed (line ++ [] ++ [',']) := htrimmed.append [] ⟨rfl, rfl⟩
      rw [List.append_nil] at hcomma
      -- the first line ends at its comma, and the others start with an indentation
      have htext : lead ++ (',' :: '\n' :: Text.indent depth).intercalate (line :: next :: lines)
          = lead ++ (line ++ [','])
            ++ '\n' :: (Text.indent depth
              ++ (',' :: '\n' :: Text.indent depth).intercalate (next :: lines)) := by
        simp [List.intercalate_cons_cons]
      rw [htext, strippedLines_append (by simp [hnewline, hline])
          (hcomma.strip_lead hblank) hcomma.ne_nil,
        ih nofun hrest _ (Or.inr rfl) (Spacing.indent depth).isBlank (newline_not_mem_indent depth)]
      rfl

/-- A line that a comma continues stays apart from the next one. -/
theorem joinLines_commaLines {lines rest : List Text} {first : Text}
    (h : commaLines lines = first :: rest) : joinLines first rest = first :: rest := by
  induction lines generalizing first rest with
  | nil => cases h
  | cons line lines ih =>
    cases lines with
    | nil =>
      cases h
      rfl
    | cons next lines =>
      rw [commaLines] at h
      obtain ⟨hfirst, hrest⟩ := List.cons.inj h
      -- the comma at the end of the line is what keeps the next one apart
      have hcontinued : Selector.isContinued (line ++ [',']) = true := by
        rw [Selector.isContinued, Text.stripEnd, Text.dropEndWhile_concat rfl, Text.endsWith,
          List.getLast?_concat]
        rfl
      cases rest with
      | nil => rfl
      | cons second rest =>
        rw [← hfirst, joinLines, if_pos hcontinued, ih hrest]

/-- The lines of such a text are its selector lines: a comma continues each of them
but the last one. -/
theorem selectorLines_intercalate (depth : Int) {lines : List Text} (hne : lines ≠ [])
    (hlines : ∀ line ∈ lines, Text.Trimmed line ∧ '\n' ∉ line) :
    selectorLines ((',' :: '\n' :: Text.indent depth).intercalate lines) = commaLines lines := by
  have hstripped := strippedLines_intercalate depth hne hlines [] (Or.inl rfl)
  rw [List.nil_append] at hstripped
  rw [selectorLines, hstripped]
  split
  · next hnil => exact hnil.symm
  · next first rest hcons => rw [hcons, joinLines_commaLines hcons]

/-! ## Lines of phrases -/

/-- One or more lines of one or more phrases. -/
def isPhraseLines (lines : List (List Text)) : Bool :=
  !lines.isEmpty && lines.all fun line => !line.isEmpty && line.all Text.isPhrase

theorem isPhraseLines_iff {lines : List (List Text)} :
    isPhraseLines lines = true ↔ lines ≠ []
      ∧ ∀ line ∈ lines, line ≠ [] ∧ ∀ t ∈ line, Text.isPhrase t = true := by
  simp [isPhraseLines]

/-- The text of lines of phrases: a gap stands after the commas in a line, and the
lines are indented. -/
def linesText (gap : Text) (depth : Int) (lines : List (List Text)) : Text :=
  (',' :: '\n' :: Text.indent depth).intercalate (lines.map fun line => (',' :: gap).intercalate line)

section LinesText

variable {gap : Text} {depth : Int} {lines : List (List Text)}

theorem trimmed_linesText (hlines : isPhraseLines lines = true) :
    Text.Trimmed (linesText gap depth lines) := by
  obtain ⟨hne, hlines⟩ := isPhraseLines_iff.1 hlines
  refine Text.trimmed_intercalate _ (by simpa using hne) (List.forall_mem_map.2 fun line hline => ?_)
  obtain ⟨hline, hphrases⟩ := hlines line hline
  exact Text.trimmed_intercalate _ hline fun t ht => Text.trimmed_of_isPhrase (hphrases t ht)

theorem isWritten_linesText (hlines : isPhraseLines lines = true) (hgap : Spacing gap) :
    ∀ c ∈ linesText gap depth lines, Text.isWritten c = true := by
  obtain ⟨-, hlines⟩ := isPhraseLines_iff.1 hlines
  have hcomma : ∀ gap : Text, Spacing gap → ∀ c ∈ ',' :: gap, Text.isWritten c = true :=
    fun gap hgap => List.forall_mem_cons.2 ⟨rfl, Text.isWritten_spacing hgap⟩
  intro c hc
  rcases Text.mem_intercalate hc with hc | ⟨t, ht, hc⟩
  · exact hcomma _ (Spacing.cons (Or.inr rfl) (Spacing.indent depth)) c hc
  · obtain ⟨line, hline, rfl⟩ := List.mem_map.1 ht
    rcases Text.mem_intercalate hc with hc | ⟨u, hu, hc⟩
    · exact hcomma gap hgap c hc
    · exact Text.isWritten_phrase ((hlines line hline).2 u hu) c hc

/-- Each of the lines, with the comma at its end, is read as its phrases. -/
theorem map_parse_commaLines (hgap : Spacing gap)
    (hlines : ∀ line ∈ lines, line ≠ [] ∧ ∀ t ∈ line, Text.isPhrase t = true) :
    (commaLines (lines.map fun line => (',' :: gap).intercalate line)).map Selector.parse
      = lines.map fun line => line.map fun t => [.literal t] := by
  induction lines with
  | nil => rfl
  | cons line lines ih =>
    obtain ⟨⟨hne, hline⟩, hrest⟩ := List.forall_mem_cons.1 hlines
    cases lines with
    | nil =>
      have hparse := Selector.parse_intercalate hgap hne hline (Or.inl rfl)
      rw [List.append_nil] at hparse
      simp only [List.map_cons, List.map_nil, commaLines, hparse]
    | cons next lines =>
      have hparse := Selector.parse_intercalate hgap hne hline (Or.inr rfl)
      have hstep := ih hrest
      simp only [List.map_cons] at hstep ⊢
      rw [commaLines, List.map_cons, hparse, hstep]

/-- The text of lines of phrases is divided into these lines, and they are read as
their phrases. -/
theorem map_parse_selectorLines (hlines : isPhraseLines lines = true)
    (hgap : gap = [] ∨ gap = [' ']) :
    (selectorLines (linesText gap depth lines)).map Selector.parse
      = lines.map fun line => line.map fun t => [.literal t] := by
  obtain ⟨hne, hlines⟩ := isPhraseLines_iff.1 hlines
  have hspacing : Spacing gap := by rcases hgap with rfl | rfl <;> decide
  have hnewline : '\n' ∉ ',' :: gap := by rcases hgap with rfl | rfl <;> decide
  rw [linesText, selectorLines_intercalate depth (by simpa using hne)]
  · exact map_parse_commaLines hspacing hlines
  · refine List.forall_mem_map.2 fun line hline => ?_
    obtain ⟨hline, hphrases⟩ := hlines line hline
    refine ⟨Text.trimmed_intercalate _ hline fun t ht => Text.trimmed_of_isPhrase (hphrases t ht), ?_⟩
    intro hmem
    rcases Text.mem_intercalate hmem with hmem | ⟨t, ht, hmem⟩
    · exact hnewline hmem
    · rcases Text.mem_phrase (hphrases t ht) hmem with hlower | hspace
      · cases hlower
      · cases hspace

end LinesText

end NestedSheet
