import Mathlib.Data.List.Perm.Basic
import NestedSheet.Proofs.Composition

/-!
# The cross product of selectors

Resolving a rule makes two tables.  The lines of the result are a table with a row for
every line of the enclosing rule and a column for every line of the rule; each of them is
again a table, of selectors, with a row for every enclosing selector and a column for
every alternative.  Both are written down row by row, which gives every selector its
place.

Lines matter to the places only: whatever the division into lines is, the selectors are
all enclosing ones combined with all alternatives.

Main results:

* `flatten_resolveIn_perm` — the selectors of a rule, up to their order.
* `resolve_cross_product` — how many lines and selectors there are, and the selector at
  each place.
-/

namespace NestedSheet.Selector

/-! ## Tables -/

section Table

variable {α β γ : Type} (f : α → β → γ)

/-- A table has as many items as its rows have together. -/
theorem length_table (rows : List α) (columns : List β) :
    (rows.flatMap fun row => columns.map (f row)).length = rows.length * columns.length := by
  induction rows with
  | nil => rw [List.flatMap_nil, List.length_nil, List.length_nil, Nat.zero_mul]
  | cons row rows ih =>
    rw [List.flatMap_cons, List.length_append, List.length_map, ih, List.length_cons,
      Nat.succ_mul, Nat.add_comm]

/-- The item of a table in a row and a column. -/
theorem getElem?_table (rows : List α) (columns : List β) (i : Fin rows.length)
    (j : Fin columns.length) :
    (rows.flatMap fun row => columns.map (f row))[i * columns.length + j]?
      = some (f rows[i] columns[j]) := by
  induction rows with
  | nil => exact i.elim0
  | cons row rows ih =>
    rw [List.flatMap_cons]
    cases i using Fin.cases with
    | zero =>
      -- the first row comes first
      have hj : (0 : Fin (rows.length + 1)).val * columns.length + j < (columns.map (f row)).length := by
        simp
      rw [List.getElem?_append_left hj]
      simp
    | succ i =>
      -- and behind it the other rows are a table of their own
      have hi : i.succ.val * columns.length + j
          = (columns.map (f row)).length + (i.val * columns.length + j) := by
        rw [List.length_map, Fin.val_succ, Nat.succ_mul]
        omega
      rw [hi, List.getElem?_append_right (Nat.le_add_right _ _), Nat.add_sub_cancel_left, ih i]
      rfl

/-- Tables with the same rows side by side are a table, up to the order of its items. -/
theorem flatMap_table_perm (rows : List α) (columns : List (List β)) :
    (columns.flatMap fun part => rows.flatMap fun row => part.map (f row)).Perm
      (rows.flatMap fun row => columns.flatten.map (f row)) := by
  induction columns with
  | nil => simp
  | cons part columns ih =>
    have hsplit : (rows.flatMap fun row => (part :: columns).flatten.map (f row))
        = rows.flatMap fun row => part.map (f row) ++ columns.flatten.map (f row) := by
      simp only [List.flatten_cons, List.map_append]
    -- row by row, the first part comes before the others; side by side, all its rows do
    rw [hsplit, List.flatMap_cons]
    exact (ih.append_left _).trans (List.flatMap_append_perm rows _ _)

end Table

/-! ## Selectors without their lines -/

theorem flatten_line_inside (outer : List Text) (lines : List Line) :
    ((lines.map (Line.inside outer)).flatten).Perm
      (outer.flatMap fun selector => lines.flatten.map (Alternative.inside selector)) := by
  rw [← List.flatMap_def]
  exact flatMap_table_perm Alternative.inside outer lines

/-- The selectors of a rule are all enclosing selectors combined with all alternatives,
whatever the lines are. -/
theorem flatten_resolveIn_perm (outer : Resolved) (lines : List Line) :
    (resolveIn outer lines).flatten.Perm
      (outer.flatten.flatMap fun selector => lines.flatten.map (Alternative.inside selector)) := by
  induction outer with
  | nil => exact List.Perm.refl _
  | cons outerLine outer ih =>
    rw [resolveIn, List.flatMap_cons, List.flatten_append, List.flatten_cons, List.flatMap_append]
    exact (flatten_line_inside outerLine lines).append ih

/-! ## The texts between the markers -/

namespace Alternative

/-- The texts before, between and after the markers of an alternative. -/
def pieces (tokens : Alternative) : List Text :=
  (tokens.splitOn .parent).map expr

theorem pieces_parent (tokens : Alternative) : pieces (.parent :: tokens) = [] :: pieces tokens := by
  rw [pieces, List.splitOn_cons_eq_if_modifyHead, if_pos (beq_self_eq_true _)]
  rfl

theorem pieces_cons {token : Token} (h : token ≠ .parent) (tokens : Alternative) :
    pieces (token :: tokens) = (pieces tokens).modifyHead (token.expr ++ ·) := by
  rw [pieces, List.splitOn_cons_eq_if_modifyHead, if_neg (by simpa using h), pieces]
  cases tokens.splitOn .parent <;> rfl

theorem pieces_ne_nil (tokens : Alternative) : pieces tokens ≠ [] := by
  simp [pieces]

/-- Joining the pieces by a text puts it in the place of every marker, and of nothing
else. -/
theorem intercalate_pieces (text : Text) (tokens : Alternative) :
    text.intercalate tokens.pieces
      = tokens.flatMap fun token => if token = .parent then text else token.expr := by
  induction tokens with
  | nil => rfl
  | cons token tokens ih =>
    obtain ⟨first, rest, hpieces⟩ := List.exists_cons_of_ne_nil (pieces_ne_nil tokens)
    rw [List.flatMap_cons, ← ih]
    by_cases htoken : token = .parent
    · -- a marker starts a new piece, so the text comes before the first of the others
      rw [if_pos htoken, htoken, pieces_parent, hpieces, List.intercalate_cons_cons, List.nil_append]
    · -- any other token goes into the first piece
      rw [if_neg htoken, pieces_cons htoken, hpieces, List.modifyHead_cons]
      cases rest with
      | nil => simp
      | cons next rest =>
        rw [List.intercalate_cons_cons, List.intercalate_cons_cons]
        simp only [List.append_assoc]

/-- The text of an alternative has the character of the marker between its pieces. -/
theorem expr_eq_intercalate (tokens : Alternative) :
    tokens.expr = [parentMark].intercalate tokens.pieces := by
  rw [intercalate_pieces, expr]
  refine List.flatMap_congr fun token _ => ?_
  split
  · next htoken => rw [htoken]; rfl
  · rfl

/-- The selector of an alternative, with what is put in the place of what. -/
theorem inside_eq_intercalate (outer : Text) (tokens : Alternative) :
    tokens.inside outer = if .parent ∈ tokens then outer.intercalate tokens.pieces
      else outer ++ ' ' :: tokens.expr := by
  rw [inside, intercalate_pieces, hasParent]
  simp only [List.contains_iff_mem]

end Alternative

/-! ## Places -/

/-- **The shape and the order of the cross product.**  A rule with `m` lines inside a rule
with `p` lines gets `p * m` lines.  The one at `i * m + j` has a selector for every
selector of the enclosing line `i` and every alternative of the line `j`, the enclosing
selectors first.  If the alternative has markers, the selector is its text with the
enclosing selector in the place of each of them, and of nothing else; otherwise it is a
descendant of the enclosing selector. -/
theorem resolve_cross_product (outer : Resolved) (lines : List Line) :
    (∀ tokens : Alternative, tokens.expr = [parentMark].intercalate tokens.pieces)
    ∧ ∃ resolved, resolve lines (some outer) = some resolved
      ∧ resolved.length = outer.length * lines.length
      ∧ ∀ (i : Fin outer.length) (j : Fin lines.length), ∃ selectors,
        resolved[i * lines.length + j]? = some selectors
        ∧ selectors.length = outer[i].length * lines[j].length
        ∧ ∀ (k : Fin outer[i].length) (l : Fin lines[j].length),
          selectors[k * lines[j].length + l]?
            = some (if .parent ∈ lines[j][l] then outer[i][k].intercalate lines[j][l].pieces
              else outer[i][k] ++ ' ' :: lines[j][l].expr) := by
  refine ⟨Alternative.expr_eq_intercalate, resolveIn outer lines, resolve_some lines outer,
    length_table Line.inside outer lines, fun i j => ?_⟩
  refine ⟨Line.inside outer[i] lines[j], getElem?_table Line.inside outer lines i j,
    length_table Alternative.inside outer[i] lines[j], fun k l => ?_⟩
  rw [← Alternative.inside_eq_intercalate]
  exact getElem?_table Alternative.inside outer[i] lines[j] k l

end NestedSheet.Selector
