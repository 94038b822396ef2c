import NestedSheet.Layout
import NestedSheet.Proofs.Trim

/-!
# The shape of what is written

The styles write rules and directives in one shape and differ in the spaces and
newlines that they put into its gaps: before the text, around the braces, between
the parts and behind it.

Main results:

* `Rule.layout_shape` — rules in all styles but the compressed one, which also
  leaves out semicolons.
* `Directive.layoutBlock_shape` — directives with a block in all styles.
* `compactOf_cons` — the parts of a block in the compact style.
-/

namespace NestedSheet

/-! ## Spacing -/

/-- Spaces and newlines only, which is all that a style puts between two parts. -/
def Spacing (t : Text) : Prop :=
  ∀ c ∈ t, c = ' ' ∨ c = '\n'

instance (t : Text) : Decidable (Spacing t) :=
  List.decidableBAll (fun c => c = ' ' ∨ c = '\n') t

namespace Spacing

theorem nil : Spacing [] :=
  fun _ h => absurd h List.not_mem_nil

theorem append {t u : Text} (ht : Spacing t) (hu : Spacing u) : Spacing (t ++ u) := by
  intro c hc
  rcases List.mem_append.1 hc with hc | hc
  · exact ht c hc
  · exact hu c hc

theorem cons {c : Char} {t : Text} (hc : c = ' ' ∨ c = '\n') (ht : Spacing t) :
    Spacing (c :: t) :=
  List.forall_mem_cons.2 ⟨hc, ht⟩

theorem indent (depth : Int) : Spacing (Text.indent depth) :=
  fun _ hc => Or.inl (List.eq_of_mem_replicate hc)

theorem isBlank {t : Text} (ht : Spacing t) : ∀ c ∈ t, Text.isBlank c = true := by
  intro c hc
  rcases ht c hc with rfl | rfl <;> rfl

end Spacing

/-! ## Rules -/

/-- A rule is its note, its selectors, and its children between braces. -/
theorem Rule.layout_shape {style : Style} (hstyle : style ≠ .compressed) (note : Text)
    (depth : Int) (rule : Rule) (parts : List Part) :
    ∃ gap close final : Text, (gap = [' '] ∨ gap = ['\n']) ∧ Spacing close
      ∧ (final = [] ∨ final = ['\n'])
      ∧ rule.layout style note depth parts
        = note ++ rule.selectors style depth ++ [' ']
          ++ '{' :: (gap ++ gap.intercalate
            (Rule.childTexts style (Rule.childDepth style depth) parts))
          ++ close ++ '}' :: final := by
  have hfinal : (if rule.groupEnd = true then ['\n'] else [] : Text) = []
      ∨ (if rule.groupEnd = true then ['\n'] else [] : Text) = ['\n'] := by
    split
    · exact Or.inr rfl
    · exact Or.inl rfl
  cases style with
  | nested => exact ⟨['\n'], [' '], _, Or.inr rfl, by decide, hfinal, by simp [Rule.layout]⟩
  | expanded =>
    exact ⟨['\n'], '\n' :: Text.indent depth, _, Or.inr rfl,
      Spacing.cons (Or.inr rfl) (Spacing.indent depth), hfinal, by simp [Rule.layout]⟩
  | compact => exact ⟨[' '], [' '], _, Or.inl rfl, by decide, hfinal, by simp [Rule.layout]⟩
  | compressed => exact absurd rfl hstyle

/-! ## Directives -/

theorem Directive.spacing_indent (style : Style) (depth : Int) :
    Spacing (Directive.indent style depth) := by
  unfold Directive.indent
  split
  · exact nofun
  · exact Spacing.indent depth

/-- A part of a compact block: its text at some depth, perhaps trimmed, with spacing
before it. -/
theorem compactOf_cons (depth : Int) (before : Before) (part : Part) (parts : List Part) :
    ∃ (lead text : Text) (place : Int) (next : Before), Spacing lead
      ∧ (text = part.layout .compact place ∨ text = Text.strip (part.layout .compact place)
        ∨ text = Text.stripEnd (part.layout .compact place))
      ∧ compactOf depth before (part :: parts) = lead ++ text ++ compactOf depth next parts := by
  cases part with
  | declaration d =>
    cases before with
    | nothing => exact ⟨[], _, 1, .declaration, Spacing.nil, Or.inl rfl, rfl⟩
    | declaration => exact ⟨[' '], _, 1, .declaration, by decide, Or.inl rfl, rfl⟩
    | other => exact ⟨['\n'], _, depth, .declaration, by decide, Or.inl rfl, rfl⟩
  | text t =>
    cases before with
    | nothing => exact ⟨[], _, 1, .other, Spacing.nil, Or.inr (Or.inl rfl), rfl⟩
    | declaration => exact ⟨['\n'], _, 1, .other, by decide, Or.inr (Or.inr rfl), rfl⟩
    | other => exact ⟨['\n'], _, 1, .other, by decide, Or.inr (Or.inr rfl), rfl⟩

/-- The parts of a block in a style, without the braces. -/
def blockBody (style : Style) (depth : Int) (parts : List Part) : Text :=
  match style with
  | .compressed => compressedOf parts
  | .compact => compactOf depth .nothing parts
  | .nested => linesOf .nested depth parts
  | .expanded => linesOf .expanded depth parts

/-- Trimming a directive with its block open stops at the brace at the latest. -/
theorem stripEnd_open (before inside : Text) :
    Text.stripEnd (before ++ '{' :: inside) = before ++ '{' :: Text.stripEnd inside :=
  Text.dropEndWhile_append_cons rfl before inside

/-- A directive with a block is its value and its parts between braces. -/
theorem Directive.layoutBlock_shape (style : Style) (depth : Int) (d : Directive)
    (parts : List Part) :
    ∃ lead gap inner close final : Text, Spacing lead ∧ Spacing gap ∧ Spacing inner
      ∧ Spacing close ∧ (final = [] ∨ final = ['\n'])
      ∧ d.layoutBlock style depth parts
        = lead ++ d.value ++ gap ++ '{' :: Text.stripEnd (inner ++ blockBody style (depth + 1) parts)
          ++ close ++ '}' :: final := by
  have hindent := Spacing.indent depth
  cases style with
  | nested =>
    refine ⟨Text.indent depth, [' '], ['\n'], [' '], ['\n'], hindent, by decide, by decide,
      by decide, Or.inr rfl, ?_⟩
    rw [Directive.layoutBlock, ← stripEnd_open]
    simp [blockBody]
  | expanded =>
    refine ⟨Text.indent depth, [' '], ['\n'], '\n' :: Text.indent depth, ['\n'], hindent,
      by decide, by decide, Spacing.cons (Or.inr rfl) hindent, Or.inr rfl, ?_⟩
    rw [Directive.layoutBlock, ← stripEnd_open]
    simp [blockBody]
  | compact =>
    refine ⟨Text.indent depth, [' '], [' '], [' '], ['\n'], hindent, by decide, by decide,
      by decide, Or.inr rfl, ?_⟩
    rw [Directive.layoutBlock, ← stripEnd_open]
    simp [blockBody]
  | compressed =>
    refine ⟨[], [], [], [], [], by decide, by decide, by decide, by decide, Or.inl rfl, ?_⟩
    rw [Directive.layoutBlock, stripEnd_open]
    simp [blockBody]

end NestedSheet
