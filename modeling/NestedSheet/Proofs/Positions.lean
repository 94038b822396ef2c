import NestedSheet.Source.Basic

/-!
# Positions and offsets

A component knows the line and the column that it starts at, counted while the text
was read.  A source turns them back into an offset by its own table of line starts.
Both count the same: the position after a start of the text has the offset of that
start, and so a slice between two positions is the text between them.

The text of a source is a normal one (`isNormal_normalizeNewlines`), and a normal text
is its own normal form (`normalizeNewlines_eq_self`).

Main results: `Source.offset_after`, `Source.slice_after`.
-/

namespace NestedSheet

/-- The position behind a start of a text. -/
def Position.behind (t : Text) : Position :=
  ({} : Position).after t

theorem Position.behind_append (t u : Text) :
    Position.behind (t ++ u) = (Position.behind t).after u :=
  Position.after_append {} t u

theorem Position.line_le_after (p : Position) (t : Text) : p.line ≤ (p.after t).line := by
  induction t generalizing p with
  | nil => exact Nat.le_refl _
  | cons c cs ih =>
    refine Nat.le_trans ?_ (ih (p.next c))
    unfold Position.next
    split
    · exact Nat.le_succ _
    · exact Nat.le_refl _

/-- The start of the line that a position is on, in a table that begins with the
line `start` of the position `p` at `offset`. -/
theorem getD_lineStartsAfter (t rest : Text) (p : Position) (start offset : Nat)
    (hcolumn : start + p.column = offset + 1) :
    (start :: lineStartsAfter offset (t ++ rest)).getD ((p.after t).line - p.line) 0
      + (p.after t).column = offset + t.length + 1 := by
  induction t generalizing p start offset with
  | nil => simpa using hcolumn
  | cons c cs ih =>
    have hafter : p.after (c :: cs) = (p.next c).after cs := rfl
    rw [hafter, List.cons_append, lineStartsAfter, List.length_cons]
    by_cases hc : c = '\n'
    · -- the line ends here, and the table goes on with the next one
      have hnext : p.next c = ⟨p.line + 1, 1⟩ := if_pos hc
      have hle := Position.line_le_after (p.next c) cs
      have hstep := ih (p.next c) (offset + 1) (offset + 1) (by rw [hnext])
      rw [if_pos hc]
      rw [hnext] at hle hstep ⊢
      obtain ⟨k, hk⟩ : ∃ k, (Position.after ⟨p.line + 1, 1⟩ cs).line = p.line + 1 + k :=
        ⟨_, (Nat.add_sub_cancel' hle).symm⟩
      rw [hk] at hstep ⊢
      rw [show p.line + 1 + k - (p.line + 1) = k by omega] at hstep
      rw [show p.line + 1 + k - p.line = k + 1 by omega, List.getD_cons_succ, hstep]
      omega
    · -- the line goes on, one column further
      have hnext : p.next c = ⟨p.line, p.column + 1⟩ := if_neg hc
      have hstep := ih (p.next c) start (offset + 1) (by rw [hnext]; simp only; omega)
      rw [if_neg hc]
      rw [hnext] at hstep ⊢
      rw [hstep]
      omega

namespace Source

variable {path : Option Text} {full pre t rest : Text}

/-- The position after a start of the text has the offset of that start. -/
theorem offset_after (h : (ofText path full).text = pre ++ rest) :
    (ofText path full).offset (Position.behind pre) = pre.length := by
  have hstarts : (ofText path full).starts = 0 :: lineStartsAfter 0 (pre ++ rest) := by
    rw [← h]
    rfl
  -- the first line starts at offset zero and at column one
  have hstep := getD_lineStartsAfter pre rest {} 0 0 rfl
  rw [offset, Position.behind, hstarts, hstep]
  omega

/-- A slice between two positions is the text between them. -/
theorem slice_after (h : (ofText path full).text = pre ++ t ++ rest) :
    (ofText path full).slice (Position.behind pre) (Position.behind (pre ++ t)) = t := by
  rw [slice, offset_after (h.trans (List.append_assoc ..)), offset_after h, h, List.take_left,
    List.drop_left]

end Source

/-! ## Normal texts -/

/-- Can the character stand in the text of a source? -/
def isNormal (c : Char) : Bool :=
  c != '\r' && c != '\x0c' && c != '\x00'

theorem isNormal_normalizeNewlines {t : Text} : ∀ c ∈ normalizeNewlines t, isNormal c = true := by
  fun_induction normalizeNewlines t with
  | case1 => nofun
  | case2 cs ih => exact List.forall_mem_cons.2 ⟨rfl, ih⟩
  | case3 c cs _ ih =>
    refine List.forall_mem_cons.2 ⟨?_, ih⟩
    split
    · rfl
    · next hbreak =>
      rw [not_or] at hbreak
      split
      · rfl
      · next hnul => simp [isNormal, hbreak, hnul]

theorem normalizeNewlines_eq_self {t : Text} (h : ∀ c ∈ t, isNormal c = true) :
    normalizeNewlines t = t := by
  induction t with
  | nil => rfl
  | cons c cs ih =>
    obtain ⟨hc, hcs⟩ := List.forall_mem_cons.1 h
    simp only [isNormal, Bool.and_eq_true, bne_iff_ne] at hc
    rw [normalizeNewlines]
    · rw [if_neg (by simp [hc.1]), if_neg hc.2, ih hcs]
    · exact fun _ heq => absurd heq hc.1.1

end NestedSheet
