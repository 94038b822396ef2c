import NestedSheet.Path

/-!
# Paths that lead back

A path is followed part by part, and what is left is a stack of parts.  Empty parts do nothing,
so the parts of a path are all that counts, and the parts of two paths behind each other are
followed one after the other (`normalParts_append`).  On a stack of names every `..` takes one of
them back (`foldl_push_ups`), and names are put on top (`foldl_push_names`).

The way from a base to a path goes up once for each part that only the base has, which leaves
what both have, and then down to the path.  So it leads from the base to the path again, however
the two were written, and it is itself in normal form.

Main results:

* `parts_normalize` — the parts of a normal form.
* `normalParts_relative` — where the way from a base leads to.
* `shown_leads_back` — file names as they are shown.
-/

namespace NestedSheet.Path

/-! ## One more part -/

section Push

variable {absolute : Bool} {stack : List Text} {part : Text}

/-- A part that leads down. -/
def IsName (part : Text) : Prop :=
  part ≠ [] ∧ part ≠ here ∧ part ≠ up

theorem push_stay (h : part = [] ∨ part = here) : push absolute stack part = stack := by
  rw [push.eq_def, if_pos h]

theorem push_name (h : IsName part) : push absolute stack part = part :: stack := by
  rw [push.eq_def, if_neg (not_or.2 ⟨h.1, h.2.1⟩), if_neg h.2.2]

theorem push_up (h : IsName part) : push absolute (part :: stack) up = stack := by
  rw [push.eq_def, if_neg (by decide), if_pos rfl]
  exact if_neg h.2.2

variable (absolute stack part) in
/-- Nothing else comes onto the stack. -/
theorem push_subset : push absolute stack part ⊆ part :: stack := by
  unfold push
  split
  · exact List.subset_cons_self _ _
  · split
    · next hup =>
      split
      · split
        · exact List.nil_subset _
        · rw [hup]
          exact List.Subset.refl _
      · next last rest =>
        split
        · rw [hup]
          exact List.Subset.refl _
        · exact fun x hx => List.mem_cons_of_mem _ (List.mem_cons_of_mem _ hx)
    · exact List.Subset.refl _

end Push

/-! ## Parts -/

theorem slash_not_mem_normalParts {absolute : Bool} {parts : List Text}
    (h : ∀ part ∈ parts, '/' ∉ part) : ∀ part ∈ normalParts absolute parts, '/' ∉ part := by
  have hfold : ∀ stack : List Text, (∀ p ∈ stack, '/' ∉ p) →
      ∀ p ∈ parts.foldl (push absolute) stack, '/' ∉ p := by
    induction parts with
    | nil => exact fun stack hstack => hstack
    | cons part rest ih =>
      intro stack hstack
      obtain ⟨hpart, hrest⟩ := List.forall_mem_cons.1 h
      refine ih hrest _ fun p hp => ?_
      rcases List.mem_cons.1 (push_subset absolute stack part hp) with rfl | hp
      · exact hpart
      · exact hstack p hp
  intro part hpart
  exact hfold [] (List.forall_mem_nil _) part (List.mem_reverse.1 hpart)

theorem parts_append_slash (t u : Text) : parts (t ++ '/' :: u) = parts t ++ parts u := by
  rw [parts, Text.cut_append_cons, List.filter_append, parts, parts]

/-- Slashes at the front make no parts. -/
theorem parts_slashes {slashes : Text} (h : ∀ c ∈ slashes, c = '/') (t : Text) :
    parts (slashes ++ t) = parts t := by
  induction slashes with
  | nil => rfl
  | cons c cs ih =>
    obtain ⟨rfl, hcs⟩ := List.forall_mem_cons.1 h
    rw [List.cons_append, ← List.nil_append ('/' :: (cs ++ t)), parts_append_slash, ih hcs]
    rfl

theorem cut_intercalate {texts : List Text} (hne : texts ≠ []) (hslash : ∀ t ∈ texts, '/' ∉ t) :
    Text.cut '/' (['/'].intercalate texts) = texts := by
  induction texts with
  | nil => exact absurd rfl hne
  | cons t texts ih =>
    obtain ⟨ht, hrest⟩ := List.forall_mem_cons.1 hslash
    cases texts with
    | nil => rw [List.intercalate_singleton, Text.cut_single ht]
    | cons u texts =>
      rw [List.intercalate_cons_cons, List.append_assoc, List.singleton_append,
        Text.cut_append ht, ih (List.cons_ne_nil u texts) hrest]

/-- Parts that are joined are the parts of the text. -/
theorem parts_intercalate {texts : List Text} (h : ∀ t ∈ texts, t ≠ [] ∧ '/' ∉ t) :
    parts (['/'].intercalate texts) = texts := by
  by_cases hne : texts = []
  · rw [hne]
    rfl
  · rw [parts, cut_intercalate hne fun t ht => (h t ht).2, List.filter_eq_self]
    intro t ht
    simp [(h t ht).1]

/-- Empty parts do nothing, so a path is followed along its parts. -/
theorem normalParts_cut (absolute : Bool) (path : Text) :
    normalParts absolute (Text.cut '/' path) = normalParts absolute (parts path) := by
  have hfilter : ∀ texts stack : List Text,
      (texts.filter fun part => !part.isEmpty).foldl (push absolute) stack
        = texts.foldl (push absolute) stack := by
    intro texts
    induction texts with
    | nil => exact fun stack => rfl
    | cons part texts ih =>
      intro stack
      by_cases hpart : part = []
      · rw [List.filter_cons_of_neg (by simp [hpart]), List.foldl_cons,
          push_stay (Or.inl hpart), ih]
      · rw [List.filter_cons_of_pos (by simp [hpart]), List.foldl_cons, List.foldl_cons, ih]
  rw [normalParts, normalParts, parts, hfilter]

/-! ## Names -/

/-- From the root a path leads along names only. -/
theorem isName_of_mem_normalParts {texts : List Text} {part : Text}
    (h : part ∈ normalParts true texts) : IsName part := by
  -- the steps up in front of a normal form are dropped at the root
  obtain ⟨names, ups, hstack, hnames, -, hups⟩ := normalParts_normal true texts
  rw [hups rfl, List.append_nil] at hstack
  exact hnames part (hstack ▸ List.mem_reverse.2 h)

/-- Names are put on the stack. -/
theorem foldl_push_names {absolute : Bool} {names : List Text} (h : ∀ part ∈ names, IsName part)
    (stack : List Text) : names.foldl (push absolute) stack = names.reverse ++ stack := by
  induction names generalizing stack with
  | nil => rfl
  | cons name names ih =>
    obtain ⟨hname, hnames⟩ := List.forall_mem_cons.1 h
    rw [List.foldl_cons, push_name hname, ih hnames, List.reverse_cons, List.append_assoc,
      List.singleton_append]

/-- Every step up takes one name off the stack. -/
theorem foldl_push_ups {absolute : Bool} {names : List Text} (h : ∀ part ∈ names, IsName part)
    (stack : List Text) :
    (List.replicate names.length up).foldl (push absolute) (names ++ stack) = stack := by
  induction names with
  | nil => rfl
  | cons name names ih =>
    obtain ⟨hname, hnames⟩ := List.forall_mem_cons.1 h
    rw [List.length_cons, List.replicate_succ, List.foldl_cons, List.cons_append, push_up hname,
      ih hnames]

/-- Behind a path that leads along names, another path goes on from there. -/
theorem normalParts_append {names : List Text} (h : ∀ part ∈ names, IsName part)
    (texts : List Text) :
    normalParts true (names ++ texts) = (texts.foldl (push true) names.reverse).reverse := by
  rw [normalParts, List.foldl_append, foldl_push_names h, List.append_nil]

/-! ## Absolute paths -/

theorem exists_rootSlashes {path : Text} (h : isAbsolute path = true) :
    ∃ more, rootSlashes path = '/' :: more ∧ ∀ c ∈ rootSlashes path, c = '/' := by
  have hhead : path.head? = some '/' := by simpa [isAbsolute] using h
  obtain ⟨rest, rfl⟩ := List.head?_eq_some_iff.1 hhead
  unfold rootSlashes
  split
  · exact ⟨[], rfl, by simp⟩
  · exact ⟨['/'], rfl, by simp⟩
  · exact ⟨[], rfl, by simp⟩
  · next hnone => exact absurd rfl (hnone rest)

theorem isAbsolute_append {path : Text} (h : isAbsolute path = true) (rest : Text) :
    isAbsolute (path ++ rest) = true := by
  have hhead : path.head? = some '/' := by simpa [isAbsolute] using h
  obtain ⟨more, rfl⟩ := List.head?_eq_some_iff.1 hhead
  rfl

theorem isAbsolute_below {directory : Text} (h : isAbsolute directory = true) (path : Text) :
    isAbsolute (below directory path) = true := by
  unfold below
  split
  · assumption
  · split
    · exact isAbsolute_append h path
    · exact isAbsolute_append h ('/' :: path)

theorem normalize_of_isAbsolute {path : Text} (h : isAbsolute path = true) :
    normalize path = rootSlashes path ++ ['/'].intercalate (normalParts true (parts path)) := by
  obtain ⟨more, hmore, -⟩ := exists_rootSlashes h
  rw [← normalParts_cut, normalize, h, hmore]
  rfl

theorem isAbsolute_normalize {path : Text} (h : isAbsolute path = true) :
    isAbsolute (normalize path) = true := by
  obtain ⟨more, hmore, -⟩ := exists_rootSlashes h
  rw [normalize_of_isAbsolute h, hmore]
  rfl

theorem slash_not_mem_of_mem_parts {path part : Text} (h : part ∈ parts path) : '/' ∉ part :=
  Text.sep_not_mem_cut (List.mem_filter.1 h).1

/-- The normal form of an absolute path has the parts that the path leads along. -/
theorem parts_normalize {path : Text} (h : isAbsolute path = true) :
    parts (normalize path) = normalParts true (parts path) := by
  obtain ⟨-, -, hslashes⟩ := exists_rootSlashes h
  rw [normalize_of_isAbsolute h, parts_slashes hslashes, parts_intercalate]
  exact fun part hpart => ⟨(isName_of_mem_normalParts hpart).1,
    slash_not_mem_normalParts (fun _ hmem => slash_not_mem_of_mem_parts hmem) part hpart⟩

/-- From an absolute directory every path leads along names. -/
theorem isName_of_mem_parts_absolute {directory : Text} (hdirectory : isAbsolute directory = true)
    {path part : Text} (h : part ∈ parts (absolute directory path)) : IsName part := by
  rw [absolute, parts_normalize (isAbsolute_below hdirectory path)] at h
  exact isName_of_mem_normalParts h

/-! ## The way from a base -/

/-- The way that goes up so many times and then down along these names. -/
def way (ups : Nat) (names : List Text) : Text :=
  if ups = 0 ∧ names = [] then here
  else ['/'].intercalate (List.replicate ups up ++ names)

/-- A relative path in normal form: `.` alone, or parts of which none is empty or `.`, with `..`
only at the front. -/
def IsReduced (path : Text) : Prop :=
  path = here ∨ NormalStack false (Text.cut '/' path).reverse

theorem step_of_mem {ups : Nat} {names : List Text} (h : ∀ part ∈ names, IsName part ∧ '/' ∉ part) :
    ∀ part ∈ List.replicate ups up ++ names, part ≠ [] ∧ '/' ∉ part := by
  intro part hpart
  rcases List.mem_append.1 hpart with hpart | hpart
  · rw [List.eq_of_mem_replicate hpart]
    decide
  · exact ⟨(h part hpart).1.1, (h part hpart).2⟩

/-- A way is in normal form. -/
theorem isReduced_way (ups : Nat) {names : List Text}
    (h : ∀ part ∈ names, IsName part ∧ '/' ∉ part) : IsReduced (way ups names) := by
  unfold way
  split
  · exact Or.inl rfl
  · next hsteps =>
    have hne : List.replicate ups up ++ names ≠ [] := by simpa using hsteps
    refine Or.inr ⟨names.reverse, List.replicate ups up, ?_, ?_, ?_, fun h => by cases h⟩
    · rw [cut_intercalate hne fun part hpart => (step_of_mem h part hpart).2, List.reverse_append,
        List.reverse_replicate]
    · exact fun part hpart => (h part (List.mem_reverse.1 hpart)).1
    · exact fun part hpart => List.eq_of_mem_replicate hpart

/-- **The way leads back**: behind the common names and those that only the base has, it leads
to the common names and its own. -/
theorem normalParts_way {common others names : List Text}
    (hbase : ∀ part ∈ common ++ others, IsName part)
    (hnames : ∀ part ∈ names, IsName part ∧ '/' ∉ part) :
    normalParts true ((common ++ others) ++ parts (way others.length names)) = common ++ names := by
  rw [normalParts_append hbase]
  unfold way
  split
  · next hnone =>
    -- the path is the base, and `.` stays there
    obtain ⟨hlength, rfl⟩ := hnone
    obtain rfl := List.eq_nil_of_length_eq_zero hlength
    show (push true (common ++ []).reverse here).reverse = common ++ []
    rw [push_stay (Or.inr rfl), List.reverse_reverse]
  · -- up from what only the base has, then down
    have hothers : ∀ part ∈ others.reverse, IsName part := fun part hpart =>
      hbase part (List.mem_append_right common (List.mem_reverse.1 hpart))
    have hups : (List.replicate others.reverse.length up).foldl (push true)
        (others.reverse ++ common.reverse) = common.reverse := foldl_push_ups hothers common.reverse
    rw [List.length_reverse] at hups
    rw [parts_intercalate (step_of_mem hnames), List.foldl_append, List.reverse_append, hups,
      foldl_push_names fun part hpart => (hnames part hpart).1, List.reverse_append,
      List.reverse_reverse, List.reverse_reverse]

/-- The way between two paths, after what they have in common. -/
theorem exists_relative (directory path base : Text) : ∃ common others names,
    parts (absolute directory base) = common ++ others
      ∧ parts (absolute directory path) = common ++ names
      ∧ relative directory path base = way others.length names := by
  obtain ⟨common, hbase, hpath⟩ :=
    dropCommon_append (parts (absolute directory base)) (parts (absolute directory path))
  refine ⟨common, _, _, hbase, hpath, ?_⟩
  simp only [relative, way, List.map_const']
  congr 1
  simp

/-- **File names as they are shown lead back to the file**, from a working directory that is
absolute.  When the name and the base are both absolute or both relative, and not empty, the
name that is shown, behind the absolute base, leads along the same parts as the name, and is in
normal form.  When only one of them is absolute, or when there is no base, the name is shown as
it is. -/
theorem shown_leads_back {directory : Text} (hdirectory : isAbsolute directory = true)
    (base path : Text) :
    (path ≠ [] → base ≠ [] → isAbsolute path = isAbsolute base →
      parts (normalize (absolute directory base ++ '/' :: shown directory (some base) path))
          = parts (absolute directory path)
        ∧ IsReduced (shown directory (some base) path))
    ∧ (isAbsolute path ≠ isAbsolute base → shown directory (some base) path = path)
    ∧ shown directory (some []) path = path
    ∧ shown directory none path = path := by
  refine ⟨fun hpath hbase halike => ?_, fun hunlike => ?_, rfl, rfl⟩
  · have hshown : shown directory (some base) path = relative directory path base := by
      simp [shown, hpath, hbase, halike]
    obtain ⟨common, others, names, hfrom, hto, hway⟩ := exists_relative directory path base
    have hnames : ∀ part ∈ names, IsName part ∧ '/' ∉ part := by
      intro part hpart
      have hmem : part ∈ parts (absolute directory path) := by
        rw [hto]
        exact List.mem_append_right common hpart
      exact ⟨isName_of_mem_parts_absolute hdirectory hmem, slash_not_mem_of_mem_parts hmem⟩
    have habsolute : isAbsolute (absolute directory base) = true :=
      isAbsolute_normalize (isAbsolute_below hdirectory base)
    -- the way goes on from the names of the base to those of the path
    rw [hshown, hway]
    refine ⟨?_, isReduced_way others.length hnames⟩
    rw [parts_normalize (isAbsolute_append habsolute _), parts_append_slash, hfrom, hto,
      normalParts_way (hfrom ▸ fun part => isName_of_mem_parts_absolute hdirectory) hnames]
  · simp [shown, hunlike]

/-- A base that is left for a directory beside it, and a base that is no help. -/
theorem shown_leads_back_beside :
    isAbsolute "/work".toList = true
    ∧ shown "/work".toList (some "lib/./x//../y".toList) "../work/lib//z/c/.".toList
        = "../z/c".toList
    ∧ (parts (normalize (absolute "/work".toList "lib/./x//../y".toList
          ++ '/' :: shown "/work".toList (some "lib/./x//../y".toList) "../work/lib//z/c/.".toList))
        = parts (absolute "/work".toList "../work/lib//z/c/.".toList)
      ∧ IsReduced (shown "/work".toList (some "lib/./x//../y".toList) "../work/lib//z/c/.".toList))
    ∧ parts (absolute "/work".toList "../work/lib//z/c/.".toList)
        = ["work".toList, "lib".toList, "z".toList, "c".toList]
    ∧ shown "/work".toList (some "/work/lib".toList) "lib/a".toList = "lib/a".toList :=
  ⟨by decide, by decide, (shown_leads_back (by decide) _ _).1 (by decide) (by decide) (by decide),
    by decide, (shown_leads_back (by decide) _ _).2.1 (by decide)⟩

end NestedSheet.Path
