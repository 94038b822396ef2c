import Mathlib.Data.List.Forall2
import NestedSheet.Proofs.Content

/-!
# Chunks of a content

Every part of a block is written as a chunk of its content: a statement with its
semicolon, or a block.  Trimming a chunk and putting spaces around it leaves it a
chunk, and chunks that follow each other make a content.  In the compressed style a
statement may also stand without its semicolon.

Main results:

* `content_flatten`, `content_intercalate` — chunks that follow each other.
* `content_loose` — chunks with semicolons between them.
* `content_blockBody` — the parts of a block in each style.
-/

namespace NestedSheet

/-- A statement with its semicolon, or a block. -/
inductive Chunk (style : Style) : Node → Text → Prop
  | statement {node : Node} {t : Text} (ht : Statement node t) : Chunk style node (t ++ [';'])
  | block {prelude : Prelude} {children : List Node} {t gap inside : Text}
    (ht : Heading style prelude t) (hgap : Spacing gap) (hinside : Content style children inside) :
    Chunk style (prelude.toNode children) (t ++ gap ++ '{' :: inside ++ ['}'])

/-- A chunk with spaces around it. -/
def Shown (style : Style) (node : Node) (t : Text) : Prop :=
  ∃ lead chunk final, Spacing lead ∧ Chunk style node chunk ∧ Spacing final
    ∧ t = lead ++ chunk ++ final

/-! ## Chunks -/

section Chunk

variable {style : Style} {node : Node} {nodes : List Node} {t ws rest : Text}

theorem Chunk.cons (h : Chunk style node t) (hws : Spacing ws)
    (hrest : Content style nodes rest) : Content style (node :: nodes) (ws ++ t ++ rest) := by
  cases h with
  | statement ht => simpa using Content.statement hws ht hrest
  | block ht hgap hinside => simpa using Content.block hws ht hgap hinside hrest

/-- A chunk ends with its semicolon or its brace. -/
theorem Chunk.exists_last (h : Chunk style node t) :
    ∃ init c, t = init ++ [c] ∧ (c = ';' ∨ c = '}') := by
  cases h with
  | statement ht => exact ⟨_, ';', rfl, Or.inl rfl⟩
  | block ht hgap hinside => exact ⟨_, '}', rfl, Or.inr rfl⟩

theorem Chunk.trimmed (h : Chunk style node t) : Text.Trimmed t := by
  cases h with
  | statement ht => simpa using ht.trimmed.append [] (u := [';']) ⟨rfl, rfl⟩
  | @block prelude children t gap inside ht hgap hinside =>
    simpa using ht.trimmed.append (gap ++ '{' :: inside) (u := ['}']) ⟨rfl, rfl⟩

end Chunk

namespace Shown

variable {style : Style} {node : Node} {nodes : List Node} {t ws rest : Text}

theorem cons (h : Shown style node t) (hrest : Content style nodes rest) :
    Content style (node :: nodes) (t ++ rest) := by
  obtain ⟨lead, chunk, final, hlead, hchunk, hfinal, rfl⟩ := h
  rw [List.append_assoc]
  exact hchunk.cons hlead (hrest.lead hfinal)

theorem single (h : Shown style node t) : Content style [node] t := by
  have hblank : Content style [] [] := Content.blank Spacing.nil
  have hcons := h.cons hblank
  rwa [List.append_nil] at hcons

theorem lead (h : Shown style node t) (hws : Spacing ws) : Shown style node (ws ++ t) := by
  obtain ⟨lead, chunk, final, hlead, hchunk, hfinal, rfl⟩ := h
  exact ⟨ws ++ lead, chunk, final, hws.append hlead, hchunk, hfinal, by simp⟩

theorem trail (h : Shown style node t) (hws : Spacing ws) : Shown style node (t ++ ws) := by
  obtain ⟨lead, chunk, final, hlead, hchunk, hfinal, rfl⟩ := h
  exact ⟨lead, chunk, final ++ ws, hlead, hchunk, hfinal.append hws, by simp⟩

theorem ne_nil (h : Shown style node t) : t ≠ [] := by
  obtain ⟨lead, chunk, final, -, hchunk, -, rfl⟩ := h
  simp [hchunk.trimmed.ne_nil]

/-- Trimming the end stops at the end of the chunk at the latest. -/
theorem dropEndWhile {p : Char → Bool} (hp : p ';' = false ∧ p '}' = false)
    (h : Shown style node t) : Shown style node (Text.dropEndWhile p t) := by
  obtain ⟨lead, chunk, final, hlead, hchunk, hfinal, rfl⟩ := h
  obtain ⟨init, c, rfl, hc⟩ := hchunk.exists_last
  have hpc : p c = false := by
    rcases hc with rfl | rfl
    · exact hp.1
    · exact hp.2
  -- only the spaces behind the chunk get shorter
  refine ⟨lead, init ++ [c], Text.dropEndWhile p final, hlead, hchunk, fun d hd => ?_, ?_⟩
  · apply hfinal d
    rw [← Text.dropEndWhile_append p final]
    exact List.mem_append_left _ hd
  · have hstop := Text.dropEndWhile_append_cons hpc (lead ++ init) final
    simpa using hstop

theorem stripEnd (h : Shown style node t) : Shown style node (Text.stripEnd t) :=
  h.dropEndWhile ⟨rfl, rfl⟩

theorem strip (h : Shown style node t) : Shown style node (Text.strip t) := by
  obtain ⟨lead, chunk, final, hlead, hchunk, hfinal, rfl⟩ := h
  rw [hchunk.trimmed.strip_append hlead.isBlank hfinal.isBlank]
  exact ⟨[], chunk, [], Spacing.nil, hchunk, Spacing.nil, by simp⟩

end Shown

/-! ## Chunks that follow each other -/

theorem content_flatten {style : Style} {nodes : List Node} {texts : List Text}
    (h : List.Forall₂ (Shown style) nodes texts) : Content style nodes texts.flatten := by
  induction h with
  | nil => exact Content.blank Spacing.nil
  | cons hshown _ ih =>
    rw [List.flatten_cons]
    exact hshown.cons ih

theorem content_intercalate {style : Style} {gap : Text} (hgap : Spacing gap) {nodes : List Node}
    {texts : List Text} (h : List.Forall₂ (Shown style) nodes texts) :
    Content style nodes (gap.intercalate texts) := by
  induction h with
  | nil => exact Content.blank Spacing.nil
  | @cons node t nodes texts hshown hrest ih =>
    cases texts with
    | nil =>
      cases hrest
      rw [List.intercalate_singleton]
      exact hshown.single
    | cons u texts =>
      rw [List.intercalate_cons_cons]
      exact (hshown.trail hgap).cons ih

/-! ## Statements without their semicolons -/

/-- A chunk with spaces around it, or a statement without its semicolon. -/
inductive Loose (style : Style) (node : Node) : Text → Prop
  | shown {t : Text} (h : Shown style node t) : Loose style node t
  | statement {lead t : Text} (hlead : Spacing lead) (ht : Statement node t) :
    Loose style node (lead ++ t)

namespace Loose

variable {style : Style} {node : Node} {nodes : List Node} {t rest : Text}

/-- A semicolon closes the statement, or nothing. -/
theorem cons (h : Loose style node t) (hrest : Content style nodes rest) :
    Content style (node :: nodes) (t ++ ';' :: rest) := by
  cases h with
  | shown h =>
    have hsemicolon : Content style nodes ([] ++ ';' :: rest) := Content.semicolon Spacing.nil hrest
    exact h.cons hsemicolon
  | statement hlead ht => exact Content.statement hlead ht hrest

theorem single (h : Loose style node t) : Content style [node] t := by
  cases h with
  | shown h => exact h.single
  | @statement lead t hlead ht =>
    have hlast : Content style [node] (lead ++ t ++ []) := Content.last hlead ht Spacing.nil
    rwa [List.append_nil] at hlast

theorem ne_nil (h : Loose style node t) : t ≠ [] := by
  cases h with
  | shown h => exact h.ne_nil
  | statement hlead ht => simp [ht.trimmed.ne_nil]

theorem dropNewlines (h : Loose style node t) :
    Loose style node (Text.dropEndWhile (· == '\n') t) := by
  cases h with
  | shown h => exact shown (h.dropEndWhile ⟨rfl, rfl⟩)
  | @statement lead t hlead ht =>
    obtain ⟨init, c, rfl, hc⟩ := ht.exists_last
    have hc : (c == '\n') = false := by simp [Text.ne_of_isLower hc]
    rw [← List.append_assoc, @Text.dropEndWhile_concat (· == '\n') c hc, List.append_assoc]
    exact statement hlead ht

/-- Without the semicolon at its end a statement is open, and all else stays. -/
theorem dropSemicolons (h : Loose style node t) :
    Loose style node (Text.dropEndWhile (· == ';') t) := by
  -- a statement ends with a letter, so only its own semicolon goes
  have hopen : ∀ lead t : Text, Statement node t →
      Text.dropEndWhile (· == ';') (lead ++ t) = lead ++ t := by
    intro lead t ht
    obtain ⟨init, c, rfl, hc⟩ := ht.exists_last
    have hc : (c == ';') = false := by simp [Text.ne_of_isLower hc]
    rw [← List.append_assoc, @Text.dropEndWhile_concat (· == ';') c hc]
  cases h with
  | statement hlead ht =>
    rw [hopen _ _ ht]
    exact statement hlead ht
  | shown h =>
    have hshown := h
    obtain ⟨lead, chunk, final, hlead, hchunk, hfinal, rfl⟩ := h
    rcases List.eq_nil_or_concat final with rfl | ⟨init, c, rfl⟩
    · rw [List.append_nil] at hshown ⊢
      cases hchunk with
      | statement ht =>
        have hall : ∀ c ∈ [';'], (c == ';') = true := List.forall_mem_singleton.2 rfl
        rw [← List.append_assoc, Text.dropEndWhile_append_all hall, hopen _ _ ht]
        exact statement hlead ht
      | block ht hgap hinside =>
        rw [← List.append_assoc, Text.dropEndWhile_concat rfl, List.append_assoc]
        exact shown hshown
    · -- the spaces at the end keep the semicolon
      have hc : (c == ';') = false := by
        rcases hfinal c (by simp) with rfl | rfl <;> rfl
      rw [List.concat_eq_append] at hshown ⊢
      rw [← List.append_assoc, @Text.dropEndWhile_concat (· == ';') c hc, List.append_assoc]
      exact shown hshown

end Loose

/-- Chunks and open statements with semicolons between them. -/
theorem content_loose {style : Style} {nodes : List Node} {texts : List Text}
    (h : List.Forall₂ (Loose style) nodes texts) : Content style nodes ([';'].intercalate texts) := by
  induction h with
  | nil => exact Content.blank Spacing.nil
  | @cons node t nodes texts hloose hrest ih =>
    cases texts with
    | nil =>
      cases hrest
      rw [List.intercalate_singleton]
      exact hloose.single
    | cons u texts =>
      rw [List.intercalate_cons_cons, List.append_assoc, List.singleton_append]
      exact hloose.cons ih

/-! ## Parts -/

/-- The part is what the tree contributes to the node around it. -/
inductive PartOf (style : Style) : Node → Part → Prop
  | declaration {d : Declaration} (hname : Text.isPlainWord d.name = true)
    (hvalue : Text.isPhrase d.value = true) : PartOf style (.declaration d) (.declaration d)
  | text {node : Node} {t : Text} (h : Shown style node t) : PartOf style node (.text t)

section PartOf

variable {style : Style} {node : Node} {part : Part}

theorem Declaration.layout_compressed (depth : Int) (d : Declaration) :
    d.layout .compressed depth = Text.indent depth ++ d.spelling [] := by
  rw [Declaration.layout, if_pos rfl, Declaration.spelling]
  simp only [List.append_assoc, List.cons_append, List.nil_append]

theorem Declaration.layout_spaced (hstyle : style ≠ .compressed) (depth : Int) (d : Declaration) :
    d.layout style depth = Text.indent depth ++ (d.spelling [' '] ++ [';']) := by
  rw [Declaration.layout, if_neg hstyle, Declaration.spelling]
  simp only [List.append_assoc, List.cons_append, List.nil_append]

/-- Declarations end with a semicolon in all styles but the compressed one. -/
theorem PartOf.shown (hstyle : style ≠ .compressed) (h : PartOf style node part) (depth : Int) :
    Shown style node (part.layout style depth) := by
  cases h with
  | @declaration d hname hvalue =>
    rw [Part.layout, Declaration.layout_spaced hstyle]
    have hgap : Spacing [' '] := by decide
    exact ⟨_, _, [], Spacing.indent depth,
      Chunk.statement (Statement.declaration hname hvalue hgap), Spacing.nil,
      (List.append_nil _).symm⟩
  | text h => exact h

theorem PartOf.loose (h : PartOf style node part) (depth : Int) :
    Loose style node (part.layout style depth) := by
  by_cases hstyle : style = .compressed
  · subst hstyle
    cases h with
    | @declaration d hname hvalue =>
      rw [Part.layout, Declaration.layout_compressed]
      exact Loose.statement (Spacing.indent depth) (Statement.declaration hname hvalue Spacing.nil)
    | text h => exact Loose.shown h
  · exact Loose.shown (h.shown hstyle depth)

end PartOf

/-! ## The parts of a rule -/

section Bodies

variable {style : Style} {nodes : List Node} {parts : List Part}

/-- The texts of the children of a rule are those of its parts: no text is empty. -/
theorem forall₂_childTexts {P : Node → Text → Prop} (depth : Int)
    (hdrop : ∀ node t, P node t → P node (Text.dropEndWhile (· == '\n') t))
    (hne : ∀ node t, P node t → t ≠ [])
    (h : List.Forall₂ (fun node part => P node (part.layout style depth)) nodes parts) :
    List.Forall₂ P nodes (Rule.childTexts style depth parts) := by
  unfold Rule.childTexts
  induction h with
  | nil => exact List.Forall₂.nil
  | @cons node part nodes parts hpart hrest ih =>
    have hpart := hdrop _ _ hpart
    -- the text is not left out
    have hempty := hne _ _ hpart
    rw [List.map_cons, List.filter_cons_of_pos (by simpa using hempty)]
    exact List.Forall₂.cons hpart ih

theorem content_childTexts (hstyle : style ≠ .compressed) (depth : Int) {gap : Text}
    (hgap : Spacing gap) (h : List.Forall₂ (PartOf style) nodes parts) :
    Content style nodes (gap ++ gap.intercalate (Rule.childTexts style depth parts)) := by
  have htexts : List.Forall₂ (Shown style) nodes (Rule.childTexts style depth parts) :=
    forall₂_childTexts depth (fun node t hshown => hshown.dropEndWhile ⟨rfl, rfl⟩)
      (fun node t hshown => hshown.ne_nil) (h.imp fun node part hpart => hpart.shown hstyle depth)
  exact (content_intercalate hgap htexts).lead hgap

theorem content_childTexts_compressed (depth : Int)
    (h : List.Forall₂ (PartOf style) nodes parts) :
    Content style nodes ([';'].intercalate
      ((Rule.childTexts style depth parts).map (Text.dropEndWhile (· == ';')))) := by
  have htexts : List.Forall₂ (Loose style) nodes (Rule.childTexts style depth parts) :=
    forall₂_childTexts depth (fun node t hloose => hloose.dropNewlines)
      (fun node t hloose => hloose.ne_nil) (h.imp fun node part hpart => hpart.loose depth)
  apply content_loose
  rw [List.forall₂_map_right_iff]
  exact htexts.imp fun node t hloose => hloose.dropSemicolons

/-! ## The parts of a directive with a block -/

theorem content_linesOf (hstyle : style ≠ .compressed) (depth : Int)
    (h : List.Forall₂ (PartOf style) nodes parts) :
    Content style nodes (linesOf style depth parts) := by
  rw [linesOf, List.flatMap_def]
  apply content_flatten
  rw [List.forall₂_map_right_iff]
  exact h.imp fun node part hpart => (hpart.shown hstyle depth).trail (by decide)

/-- In a compact block every part is a chunk, with its own spaces before it. -/
theorem content_compactOf (depth : Int) (before : Before)
    (h : List.Forall₂ (PartOf .compact) nodes parts) :
    Content .compact nodes (compactOf depth before parts) := by
  induction h generalizing before with
  | nil => exact Content.blank Spacing.nil
  | @cons node part nodes parts hpart hrest ih =>
    obtain ⟨lead, text, place, next, hlead, htext, hcompact⟩ :=
      compactOf_cons depth before part parts
    have hshown : Shown .compact node text := by
      have hlayout := hpart.shown (by decide) place
      rcases htext with rfl | rfl | rfl
      · exact hlayout
      · exact hlayout.strip
      · exact hlayout.stripEnd
    rw [hcompact]
    exact (hshown.lead hlead).cons (ih next)

theorem content_compressedOf (h : List.Forall₂ (PartOf .compressed) nodes parts) :
    Content .compressed nodes (compressedOf parts) := by
  fun_induction compressedOf parts generalizing nodes with
  | case1 =>
    cases h
    exact Content.blank Spacing.nil
  | case2 part =>
    cases h with
    | cons hpart hrest =>
      cases hrest
      exact (hpart.loose 1).single
  | case3 d next parts ih =>
    cases h with
    | cons hpart hrest => exact (hpart.loose 1).cons (ih hrest)
  | case4 t next parts ih =>
    cases h with
    | cons hpart hrest =>
      -- a text ends by itself, so no semicolon has to stand behind it
      cases hpart with
      | text hshown => exact hshown.cons (ih hrest)

theorem content_blockBody (depth : Int) (h : List.Forall₂ (PartOf style) nodes parts) :
    Content style nodes (blockBody style depth parts) := by
  cases style with
  | nested => exact content_linesOf (by decide) depth h
  | expanded => exact content_linesOf (by decide) depth h
  | compact => exact content_compactOf depth .nothing h
  | compressed => exact content_compressedOf h

end Bodies

end NestedSheet
