import NestedSheet.Text.Blank

/-!
# Trimming

What trimming a text at its ends does to a text that is put together from parts.
Trimming stops at the last character that is not trimmed, and a filter that drops
all that is trimmed does not see it.

Main results: `dropEndWhile_append_cons`, `dropEndWhile_append_all` and
`Trimmed.strip_append`, where trimming stops; `filter_dropEndWhile`, `filter_strip`,
what a filter sees of it.
-/

namespace NestedSheet.Text

variable {p keep : Char → Bool}

/-! ## Where trimming stops -/

/-- A character that is not trimmed keeps all that stands before it. -/
theorem dropEndWhile_append_cons {c : Char} (hc : p c = false) (t u : Text) :
    dropEndWhile p (t ++ c :: u) = t ++ c :: dropEndWhile p u := by
  unfold dropEndWhile
  -- read backwards, the character stops the trimming
  have hstop : (c :: t.reverse).dropWhile p = c :: t.reverse := by
    rw [List.dropWhile_cons, if_neg (by simp [hc])]
  rw [List.reverse_append, List.reverse_cons, List.append_assoc, List.singleton_append,
    List.dropWhile_append, hstop]
  split
  · next hempty => simp [List.isEmpty_iff.1 hempty]
  · simp

/-- A text that ends with a character that is not trimmed stays as it is. -/
theorem dropEndWhile_concat {c : Char} (hc : p c = false) (t : Text) :
    dropEndWhile p (t ++ [c]) = t ++ [c] :=
  dropEndWhile_append_cons hc t []

/-- An end of which everything is trimmed does not matter. -/
theorem dropEndWhile_append_all {u : Text} (hu : ∀ c ∈ u, p c = true) (t : Text) :
    dropEndWhile p (t ++ u) = dropEndWhile p t := by
  unfold dropEndWhile
  rw [List.reverse_append, List.dropWhile_append_of_pos]
  intro c hc
  exact hu c (List.mem_reverse.1 hc)

/-! ## Both ends -/

/-- Trimming both ends of a list takes off what is trimmed around its middle, if the
middle starts and ends with elements that are not. -/
theorem trim_append {α : Type} {p : α → Bool} {before middle after : List α}
    (hbefore : ∀ a ∈ before, p a = true) (hafter : ∀ a ∈ after, p a = true)
    (hfirst : middle.head?.any (fun a => !p a) = true)
    (hlast : middle.getLast?.any (fun a => !p a) = true) :
    (((before ++ middle ++ after).dropWhile p).reverse.dropWhile p).reverse = middle := by
  have hstart : ∀ rest, (middle ++ rest).dropWhile p = middle ++ rest := by
    intro rest
    cases middle with
    | nil => cases hfirst
    | cons a as =>
      have ha : p a = false := by simpa using hfirst
      rw [List.cons_append, List.dropWhile_cons, if_neg (by simp [ha])]
  -- and the same from the other end
  have hend : middle.reverse.dropWhile p = middle.reverse := by
    rw [← List.head?_reverse] at hlast
    cases hmiddle : middle.reverse with
    | nil => rfl
    | cons a as =>
      rw [hmiddle] at hlast
      have ha : p a = false := by simpa using hlast
      rw [List.dropWhile_cons, if_neg (by simp [ha])]
  have hreverse : ∀ a ∈ after.reverse, p a = true :=
    fun a ha => hafter a (List.mem_reverse.1 ha)
  rw [List.append_assoc, List.dropWhile_append_of_pos hbefore, hstart, List.reverse_append,
    List.dropWhile_append_of_pos hreverse, hend, List.reverse_reverse]

/-- The text starts and ends with characters that are not blank. -/
structure Trimmed (t : Text) : Prop where
  first : t.head?.any (fun c => !isBlank c) = true
  last : t.getLast?.any (fun c => !isBlank c) = true

/-- Trimming a text takes off the blanks around it. -/
theorem Trimmed.strip_append {before t after : Text} (ht : Trimmed t)
    (hbefore : ∀ c ∈ before, isBlank c = true) (hafter : ∀ c ∈ after, isBlank c = true) :
    strip (before ++ t ++ after) = t :=
  trim_append hbefore hafter ht.first ht.last

theorem Trimmed.strip_lead {before t : Text} (ht : Trimmed t)
    (hbefore : ∀ c ∈ before, isBlank c = true) : strip (before ++ t) = t := by
  have hstrip := @strip_append before t [] ht hbefore nofun
  rwa [List.append_nil] at hstrip

theorem Trimmed.strip_eq {t : Text} (ht : Trimmed t) : strip t = t :=
  @strip_lead [] t ht nofun

theorem Trimmed.ne_nil {t : Text} (ht : Trimmed t) : t ≠ [] := by
  rintro rfl
  cases ht.first

theorem strip_subset (t : Text) : strip t ⊆ t := by
  intro c hc
  have hstart : c ∈ stripStart t :=
    dropEndWhile_append isBlank (stripStart t) ▸ List.mem_append_left _ hc
  exact List.dropWhile_subset _ hstart

/-- What is left after trimming is trimmed, if anything is. -/
theorem trimmed_strip {t : Text} (h : strip t ≠ []) : Trimmed (strip t) := by
  have hend : strip t ++ ((stripStart t).reverse.takeWhile isBlank).reverse = stripStart t :=
    dropEndWhile_append isBlank (stripStart t)
  constructor
  · -- trimming the end leaves the start as it is
    obtain ⟨c, cs, hcs⟩ := List.exists_cons_of_ne_nil h
    have hstart := List.head?_dropWhile_not isBlank t
    rw [← stripStart, ← hend, hcs] at hstart
    simpa [hcs] using hstart
  · obtain ⟨init, c, hc⟩ := List.eq_nil_or_concat (strip t) |>.resolve_left h
    have hlast := List.head?_dropWhile_not isBlank (stripStart t).reverse
    rw [← List.getLast?_reverse, ← dropEndWhile, ← stripEnd, ← strip, hc] at hlast
    simpa [hc] using hlast

/-- Trimming the end does not reach into a trimmed text. -/
theorem Trimmed.stripEnd_append {t : Text} (ht : Trimmed t) (before : Text) :
    stripEnd (before ++ t) = before ++ t := by
  rcases List.eq_nil_or_concat t with rfl | ⟨init, c, rfl⟩
  · cases ht.first
  · have hlast := ht.last
    rw [List.concat_eq_append] at hlast ⊢
    have hc : isBlank c = false := by simpa using hlast
    rw [← List.append_assoc]
    exact dropEndWhile_concat hc (before ++ init)

/-! ## What a filter sees -/

theorem filter_dropWhile (h : ∀ c, p c = true → keep c = false) (t : Text) :
    (t.dropWhile p).filter keep = t.filter keep := by
  induction t with
  | nil => rfl
  | cons c cs ih =>
    rw [List.dropWhile_cons]
    split
    · next hc => rw [ih, List.filter_cons, if_neg (by simp [h c hc])]
    · rfl

/-- A filter that drops all that is trimmed does not see the trimming. -/
theorem filter_dropEndWhile (h : ∀ c, p c = true → keep c = false) (t : Text) :
    (dropEndWhile p t).filter keep = t.filter keep := by
  unfold dropEndWhile
  rw [List.filter_reverse, filter_dropWhile h, ← List.filter_reverse, List.reverse_reverse]

theorem filter_stripEnd (h : ∀ c, isBlank c = true → keep c = false) (t : Text) :
    (stripEnd t).filter keep = t.filter keep :=
  filter_dropEndWhile h t

theorem filter_strip (h : ∀ c, isBlank c = true → keep c = false) (t : Text) :
    (strip t).filter keep = t.filter keep := by
  rw [strip, filter_stripEnd h]
  exact filter_dropWhile h t

theorem filter_indent (h : ∀ c, isBlank c = true → keep c = false) (depth : Int) :
    (indent depth).filter keep = [] := by
  rw [List.filter_eq_nil_iff]
  intro c hc
  rw [List.eq_of_mem_replicate hc, h ' ' rfl]
  exact Bool.false_ne_true

/-- A filter goes through the separators and the parts between them. -/
theorem filter_intercalate (sep : Text) (parts : List Text) :
    (sep.intercalate parts).filter keep
      = (sep.filter keep).intercalate (parts.map (List.filter keep)) := by
  induction parts with
  | nil => rfl
  | cons first rest ih =>
    cases rest with
    | nil => simp
    | cons second rest =>
      rw [List.intercalate_cons_cons, List.filter_append, List.filter_append, ih]
      simp only [List.map_cons, List.intercalate_cons_cons]

/-- Separators and parts of which a filter sees the same make texts of which it sees
the same. -/
theorem filter_intercalate_congr {sep sep' : Text} {parts parts' : List Text}
    (hsep : sep.filter keep = sep'.filter keep)
    (hparts : parts.map (List.filter keep) = parts'.map (List.filter keep)) :
    (sep.intercalate parts).filter keep = (sep'.intercalate parts').filter keep := by
  rw [filter_intercalate, filter_intercalate, hsep, hparts]

/-- Of parts with separators that a filter drops, it sees the parts. -/
theorem filter_intercalate_dropped {sep : Text} (hsep : sep.filter keep = []) (parts : List Text) :
    (sep.intercalate parts).filter keep = parts.flatMap (List.filter keep) := by
  rw [filter_intercalate, hsep]
  induction parts with
  | nil => rfl
  | cons first rest ih =>
    cases rest with
    | nil => simp
    | cons second rest =>
      rw [List.map_cons, List.map_cons, List.intercalate_cons_cons, ← List.map_cons, ih]
      simp

end NestedSheet.Text
