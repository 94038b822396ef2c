import NestedSheet.Proofs.Segments
import NestedSheet.Source.Read

/-!
# Continued selector lines

The text before a block can go over several lines.  A line that ends with a comma is
continued, and the next one is a selector line of its own; any other line is joined with
the next one by a space.  So the lines are cut into groups behind their final commas
(`AreCut`), and every group is one selector line.

The cuts change nothing of what the text says, as long as the quotes of every selector
line are closed: a comma at the end of a line divides nothing, and in front of another
line it divides the two.

Main results:

* `joinLines_cut`: the groups that lines are joined in.
* `parse_continued`: a line that ends with a comma in front of another line.
* `selectorLines_cut`: the selector lines of a text.
-/

namespace NestedSheet

/-! ## The ends of lines -/

theorem Text.trimmed_of_mem_strippedLines {t line : Text} (h : line ∈ strippedLines t) :
    Trimmed line := by
  obtain ⟨hmem, hne⟩ := List.mem_filter.1 h
  obtain ⟨piece, -, rfl⟩ := List.mem_map.1 hmem
  exact trimmed_strip (by simpa using hne)

/-- Lines in one line end with the last of them. -/
theorem endsWith_intercalate {last : Text} (hlast : last ≠ []) (lines : List Text) (c : Char) :
    Text.endsWith ([' '].intercalate (lines ++ [last])) c = last.endsWith c := by
  rcases lines with _ | ⟨first, lines⟩
  · rw [List.nil_append, List.intercalate_singleton]
  · rw [intercalate_append [' '] (List.cons_ne_nil first lines) (List.cons_ne_nil last []),
      List.intercalate_singleton, Text.endsWith, List.getLast?_append_of_ne_nil _ hlast, Text.endsWith]

/-- A trimmed line is continued if it ends with a comma. -/
theorem isContinued_of_trimmed {line : Text} (h : line.Trimmed) :
    Selector.isContinued line = line.endsWith ',' := by
  have hstrip := h.stripEnd_append []
  rw [List.nil_append] at hstrip
  rw [Selector.isContinued, hstrip]

/-! ## Groups of lines -/

/-- The groups are made of the lines in their order, cut behind every line that ends with
a comma and nowhere else. -/
structure AreCut (lines : List Text) (groups : List (List Text)) : Prop where
  flatten : groups.flatten = lines
  nonempty : ∀ group ∈ groups, group ≠ []
  inside : ∀ group ∈ groups, ∀ line ∈ group.dropLast, Text.endsWith line ',' = false
  final : ∀ group ∈ groups.dropLast, ∀ line ∈ group.getLast?, Text.endsWith line ',' = true

/-- Lines of which only the last one may end with a comma are one group. -/
theorem AreCut.single {lines : List Text} {last : Text}
    (hlines : ∀ line ∈ lines, Text.endsWith line ',' = false) :
    AreCut (lines ++ [last]) [lines ++ [last]] where
  flatten := by simp
  nonempty := by simp
  inside := by simpa using hlines
  final := nofun

/-- Lines of which the last one ends with a comma are a group before others. -/
theorem AreCut.cons {lines others : List Text} {last : Text} {groups : List (List Text)}
    (hlines : ∀ line ∈ lines, Text.endsWith line ',' = false) (hlast : last.endsWith ',' = true)
    (h : AreCut others groups) : AreCut (lines ++ last :: others) ((lines ++ [last]) :: groups) where
  flatten := by simp [h.flatten]
  nonempty := List.forall_mem_cons.2 ⟨by simp, h.nonempty⟩
  inside := List.forall_mem_cons.2 ⟨by simpa using hlines, h.inside⟩
  final := by
    cases groups with
    | nil => exact nofun
    | cons group groups =>
      rw [List.dropLast_cons_of_ne_nil (List.cons_ne_nil group groups)]
      exact List.forall_mem_cons.2 ⟨by simpa using hlast, h.final⟩

/-- **Lines are joined in groups.**  The line that others are joined to is itself made of
lines, none of which but the last may end with a comma. -/
theorem joinLines_cut {lines : List Text} (hlines : ∀ line ∈ lines, Text.Trimmed line) :
    ∀ (before : List Text) {last : Text}, (∀ line ∈ before, Text.endsWith line ',' = false) →
      (∀ line ∈ before, Text.Trimmed line) → Text.Trimmed last →
        ∃ groups, AreCut (before ++ last :: lines) groups
          ∧ joinLines ([' '].intercalate (before ++ [last])) lines
            = groups.map fun group => [' '].intercalate group := by
  -- induction on the lines that are left, with the lines of the present group in `before`
  induction lines with
  | nil =>
    intro before last hbefore _ _
    exact ⟨[before ++ [last]], .single hbefore, rfl⟩
  | cons next lines ih =>
    intro before last hbefore htrimmed hlast
    obtain ⟨hnext, hrest⟩ := List.forall_mem_cons.1 hlines
    have hcurrent : Text.Trimmed ([' '].intercalate (before ++ [last])) :=
      Text.trimmed_intercalate [' '] (by simp)
        (List.forall_mem_append.2 ⟨htrimmed, List.forall_mem_singleton.2 hlast⟩)
    rw [joinLines, isContinued_of_trimmed hcurrent, endsWith_intercalate hlast.ne_nil]
    cases hcomma : Text.endsWith last ',' with
    | true =>
      -- the group ends here, and the next line starts another one
      obtain ⟨groups, hcut, hjoin⟩ := ih hrest [] (List.forall_mem_nil _) (List.forall_mem_nil _) hnext
      rw [List.nil_append, List.intercalate_singleton] at hjoin
      refine ⟨(before ++ [last]) :: groups, hcut.cons hbefore hcomma, ?_⟩
      rw [if_pos rfl, hjoin]
      rfl
    | false =>
      -- the group goes on, and the line that is joined so far with it
      have hmore : ∀ line ∈ before ++ [last], Text.endsWith line ',' = false :=
        List.forall_mem_append.2 ⟨hbefore, List.forall_mem_singleton.2 hcomma⟩
      obtain ⟨groups, hcut, hjoin⟩ := ih hrest (before ++ [last]) hmore
        (List.forall_mem_append.2 ⟨htrimmed, List.forall_mem_singleton.2 hlast⟩) hnext
      rw [intercalate_append [' '] (by simp) (List.cons_ne_nil next []),
        List.intercalate_singleton, List.append_assoc] at hjoin
      rw [List.append_assoc] at hcut
      exact ⟨groups, hcut, by rw [if_neg Bool.false_ne_true, ← hjoin]; rfl⟩

/-- The selector lines of a text are groups of its lines. -/
theorem exists_groups (t : Text) : ∃ groups, AreCut (Text.strippedLines t) groups
    ∧ selectorLines t = groups.map fun group => [' '].intercalate group := by
  have htrimmed : ∀ line ∈ Text.strippedLines t, Text.Trimmed line :=
    fun line => Text.trimmed_of_mem_strippedLines
  unfold selectorLines
  cases hlines : Text.strippedLines t with
  | nil => exact ⟨[], ⟨rfl, nofun, nofun, nofun⟩, rfl⟩
  | cons first lines =>
    rw [hlines] at htrimmed
    obtain ⟨hfirst, hrest⟩ := List.forall_mem_cons.1 htrimmed
    have hjoin := joinLines_cut hrest [] (List.forall_mem_nil _) (List.forall_mem_nil _) hfirst
    rwa [List.nil_append, List.nil_append, List.intercalate_singleton] at hjoin

/-- Every group but the last one ends with a comma, and so does its line. -/
theorem AreCut.endsWith {lines : List Text} {groups : List (List Text)} (h : AreCut lines groups)
    (hlines : ∀ line ∈ lines, Text.Trimmed line) :
    ∀ line ∈ (groups.map fun group => [' '].intercalate group).dropLast,
      Text.endsWith line ',' = true := by
  rw [← List.map_dropLast]
  refine List.forall_mem_map.2 fun group hgroup => ?_
  have hmem := List.dropLast_subset groups hgroup
  obtain ⟨init, last, rfl⟩ := (List.eq_nil_or_concat group).resolve_left (h.nonempty group hmem)
  rw [List.concat_eq_append] at hgroup hmem ⊢
  have hlast : last ∈ lines := by
    rw [← h.flatten]
    exact List.mem_flatten.2 ⟨_, hmem, by simp⟩
  rw [endsWith_intercalate (hlines last hlast).ne_nil]
  exact h.final _ hgroup last (by simp)

/-- The line of a group does not start with a blank. -/
theorem AreCut.startsInk {lines : List Text} {groups : List (List Text)} (h : AreCut lines groups)
    (hlines : ∀ line ∈ lines, Text.Trimmed line) :
    ∀ line ∈ groups.map fun group => [' '].intercalate group, Selector.startsInk line = true := by
  refine List.forall_mem_map.2 fun group hgroup => ?_
  refine (Text.trimmed_intercalate [' '] (h.nonempty group hgroup) fun line hline => ?_).first
  exact hlines line (h.flatten ▸ List.mem_flatten.2 ⟨group, hgroup, hline⟩)

/-! ## Reading lines behind one another -/

namespace Selector

/-- What stands in front of a text stands in front of a longer one. -/
theorem Token.Precedes.append {token : Token} {rest : Text} (h : token.Precedes rest)
    (hrest : rest ≠ []) (more : Text) : token.Precedes (rest ++ more) := by
  cases h with
  | literal hne hplain hstop =>
    obtain ⟨c, cs, rfl⟩ := List.exists_cons_of_ne_nil hrest
    exact .literal hne hplain hstop
  | parent => exact .parent
  | quoted hq hinside => exact .quoted hq hinside

/-- No token that stands in front of a text ends with a comma. -/
theorem Token.Precedes.endsWith {token : Token} {rest : Text} (h : token.Precedes rest) :
    Text.endsWith token.expr ',' = false := by
  cases h with
  | @literal text hne hplain _ =>
    obtain ⟨init, c, rfl⟩ := (List.eq_nil_or_concat text).resolve_left hne
    have hc := hplain c (by simp)
    have hcomma := (isPlain_iff.1 hc).2.1
    simp [Token.expr, Text.endsWith, hcomma]
  | parent => rfl
  | @quoted q inside hq _ =>
    have hexpr : Token.expr (.quoted [q] inside [q]) = (q :: inside) ++ [q] := rfl
    have hcomma := (ne_of_isQuote hq).2
    rw [hexpr, Text.endsWith, List.getLast?_concat]
    simpa using hcomma

/-- **A continued line.**  A line whose quotes are closed and that ends with a comma, in
front of another line: both are read as they are by themselves. -/
theorem parse_continued {rest : Text} (hrest : startsInk rest = true) (t : Text)
    (hcomma : t.endsWith ',' = true) (hclosed : Line.isTerminated (parse t) = true) :
    parse (t ++ ' ' :: rest) = parse t ++ parse rest := by
  -- the comma is in the last segment of the line, so every other one stays where it is
  induction t using line_induction with
  | nil => cases hcomma
  | token token t htoken ih =>
    -- no token ends with a comma, so something stands behind this one
    have hne : t ≠ [] := by
      rintro rfl
      rw [List.append_nil, htoken.endsWith] at hcomma
      cases hcomma
    rw [Text.endsWith, List.getLast?_append_of_ne_nil _ hne] at hcomma
    rw [parse_precedes htoken, isTerminated_modifyHead token (parse_ne_nil t), htoken.isTerminated,
      Bool.true_and] at hclosed
    obtain ⟨first, others, hparse⟩ := List.exists_cons_of_ne_nil (parse_ne_nil t)
    rw [List.append_assoc, parse_precedes (htoken.append hne _), ih hcomma hclosed,
      parse_precedes htoken, hparse]
    rfl
  | comma blanks t hblanks ht ih =>
    have hne : t ≠ [] := by
      rintro rfl
      cases ht
    have hlast : Text.endsWith t ',' = true := by
      rwa [Text.endsWith, ← List.cons_append, List.getLast?_append_of_ne_nil _ hne] at hcomma
    rw [parse_comma hblanks ht] at hclosed
    rw [List.cons_append, List.append_assoc, parse_comma hblanks (startsInk_append ht _),
      ih hlast hclosed, parse_comma hblanks ht]
    rfl
  | lastComma blanks hblanks =>
    -- with the other line behind it, the comma divides, and takes the space with its blanks
    have hspace : ∀ c ∈ blanks ++ [' '], Text.isBlank c = true :=
      List.forall_mem_append.2 ⟨hblanks, List.forall_mem_singleton.2 rfl⟩
    rw [parse_lastComma hblanks, List.cons_append, List.append_cons, parse_comma hspace hrest]
    rfl
  | unclosed q inside closing hq hinside hclosing =>
    rw [isTerminated_unclosed hq hinside hclosing] at hclosed
    cases hclosed

/-- Continued lines in one line are read as they are by themselves. -/
theorem parse_spaced {lines : List Text} (hne : lines ≠ [])
    (hink : ∀ line ∈ lines, startsInk line = true)
    (hcomma : ∀ line ∈ lines.dropLast, Text.endsWith line ',' = true)
    (hclosed : ∀ line ∈ lines.dropLast, Line.isTerminated (parse line) = true) :
    parse ([' '].intercalate lines) = lines.flatMap parse := by
  induction lines with
  | nil => exact absurd rfl hne
  | cons line lines ih =>
    obtain ⟨-, hink⟩ := List.forall_mem_cons.1 hink
    cases lines with
    | nil => rw [List.intercalate_singleton, List.flatMap_singleton]
    | cons next lines =>
      rw [List.dropLast_cons_of_ne_nil (List.cons_ne_nil next lines)] at hcomma hclosed
      obtain ⟨hfirst, hcomma⟩ := List.forall_mem_cons.1 hcomma
      obtain ⟨hterminated, hclosed⟩ := List.forall_mem_cons.1 hclosed
      have hrest : startsInk ([' '].intercalate (next :: lines)) = true := by
        have hnext := hink next List.mem_cons_self
        cases lines with
        | nil => rwa [List.intercalate_singleton]
        | cons other lines =>
          rw [List.intercalate_cons_cons, List.append_assoc]
          exact startsInk_append hnext _
      rw [List.intercalate_cons_cons, List.append_assoc, List.singleton_append,
        parse_continued hrest line hfirst hterminated, ih nofun hink hcomma hclosed]
      exact List.flatMap_cons.symm

end Selector

/-! ## The selector lines of a text -/

/-- **Selector lines.**  The selector lines of a text that is not blank, joined by spaces,
are the lines of the text joined by spaces; they are its lines in groups that are cut behind
every line with a comma at its end and nowhere else, so every selector line but the last one
ends with a comma; and if all their quoted spans are terminated, they are read as what the
lines in one line are read as. -/
theorem selectorLines_cut (t : Text) (h : Text.strippedLines t ≠ []) :
    [' '].intercalate (selectorLines t) = [' '].intercalate (Text.strippedLines t)
      ∧ (∃ groups, AreCut (Text.strippedLines t) groups
        ∧ selectorLines t = groups.map fun group => [' '].intercalate group)
      ∧ (∀ line ∈ (selectorLines t).dropLast, Text.endsWith line ',' = true)
      ∧ ((∀ line ∈ selectorLines t, Selector.Line.isTerminated (Selector.parse line) = true) →
        (selectorLines t).flatMap Selector.parse
          = Selector.parse ([' '].intercalate (Text.strippedLines t))) := by
  have htrimmed : ∀ line ∈ Text.strippedLines t, Text.Trimmed line :=
    fun line => Text.trimmed_of_mem_strippedLines
  obtain ⟨groups, hcut, hlines⟩ := exists_groups t
  have hjoined : [' '].intercalate (selectorLines t) = [' '].intercalate (Text.strippedLines t) := by
    rw [hlines, intercalate_flatten [' '] hcut.nonempty, hcut.flatten]
  -- the selector lines are continued lines in front of one another
  have hcomma := hcut.endsWith htrimmed
  have hink := hcut.startsInk htrimmed
  rw [← hlines] at hcomma hink
  refine ⟨hjoined, ⟨groups, hcut, hlines⟩, hcomma, fun hclosed => ?_⟩
  have hne : selectorLines t ≠ [] := by
    rintro hnil
    rw [hlines, List.map_eq_nil_iff] at hnil
    exact h (by rw [← hcut.flatten, hnil]; rfl)
  rw [← hjoined, Selector.parse_spaced hne hink hcomma
    fun line hline => hclosed line (List.dropLast_subset _ hline)]

/-- A quoted comma, a blank line, an empty alternative and a line that is a comma. -/
theorem selectorLines_cut_commas :
    ∃ t : Text, t = "a \"x,\",\n\n b\nc,,\n,\n&d".toList ∧ Text.strippedLines t ≠ []
      ∧ selectorLines t = ["a \"x,\",".toList, "b c,,".toList, [','], "&d".toList]
      ∧ (∀ line ∈ selectorLines t, Selector.Line.isTerminated (Selector.parse line) = true)
      ∧ (selectorLines t).flatMap Selector.parse
        = Selector.parse ([' '].intercalate (Text.strippedLines t)) := by
  refine ⟨_, rfl, by decide, by decide, ?_, ?_⟩
  · decide +kernel
  · exact (selectorLines_cut _ (by decide)).2.2.2 (by decide +kernel)

end NestedSheet
