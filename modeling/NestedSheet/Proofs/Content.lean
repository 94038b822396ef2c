import NestedSheet.Proofs.Statements

/-!
# The content of a block

What a sheet or a block holds between its ends, as a grammar: statements that a
semicolon or the end closes, blocks with what stands before them, semicolons that
close nothing, and spaces between all of them.  `Content style nodes t` says that
the text `t` is such a content and that it says what the trees `nodes` say.

Main results:

* `Content.lead`, `Content.trail`, `Content.stripEnd` — spaces at the ends do not
  matter.
* `Content.read` — a content is read as trees that say the same.
-/

namespace NestedSheet

open Component

/-- The text is the content of a block that holds the trees. -/
inductive Content (style : Style) : List Node → Text → Prop
  /-- Nothing but spaces. -/
  | blank {ws : Text} (hws : Spacing ws) : Content style [] ws
  /-- A semicolon that closes nothing. -/
  | semicolon {ws rest : Text} {nodes : List Node} (hws : Spacing ws)
    (hrest : Content style nodes rest) : Content style nodes (ws ++ ';' :: rest)
  /-- A statement that the end closes. -/
  | last {ws t ws' : Text} {node : Node} (hws : Spacing ws) (ht : Statement node t)
    (hws' : Spacing ws') : Content style [node] (ws ++ t ++ ws')
  /-- A statement that a semicolon closes. -/
  | statement {ws t rest : Text} {node : Node} {nodes : List Node} (hws : Spacing ws)
    (ht : Statement node t) (hrest : Content style nodes rest) :
    Content style (node :: nodes) (ws ++ t ++ ';' :: rest)
  /-- A block with its heading. -/
  | block {ws t gap inside rest : Text} {prelude : Prelude} {children nodes : List Node}
    (hws : Spacing ws) (ht : Heading style prelude t) (hgap : Spacing gap)
    (hinside : Content style children inside) (hrest : Content style nodes rest) :
    Content style (prelude.toNode children :: nodes)
      (ws ++ t ++ gap ++ '{' :: inside ++ '}' :: rest)

namespace Content

variable {style : Style} {nodes : List Node} {t ws : Text}

/-! ## Spaces at the ends -/

theorem lead (h : Content style nodes t) (hws : Spacing ws) : Content style nodes (ws ++ t) := by
  cases h with
  | blank ht => exact blank (hws.append ht)
  | semicolon hws' hrest =>
    rw [← List.append_assoc]
    exact semicolon (hws.append hws') hrest
  | last hws' ht hend =>
    rw [← List.append_assoc, ← List.append_assoc]
    exact last (hws.append hws') ht hend
  | statement hws' ht hrest =>
    rw [← List.append_assoc, ← List.append_assoc]
    exact statement (hws.append hws') ht hrest
  | block hws' ht hgap hinside hrest =>
    simp only [← List.append_assoc]
    exact block (hws.append hws') ht hgap hinside hrest

theorem trail (h : Content style nodes t) (hws : Spacing ws) : Content style nodes (t ++ ws) := by
  induction h with
  | blank ht => exact blank (ht.append hws)
  | semicolon hws' hrest ih =>
    rw [List.append_assoc, List.cons_append]
    exact semicolon hws' ih
  | last hws' ht hend =>
    rw [List.append_assoc]
    exact last hws' ht (hend.append hws)
  | statement hws' ht hrest ih =>
    rw [List.append_assoc, List.cons_append]
    exact statement hws' ht ih
  | block hws' ht hgap hinside hrest ihinside ih =>
    rw [List.append_assoc, List.cons_append]
    exact block hws' ht hgap hinside ih

/-- A content without the blanks at its end is a content: they all stand behind the
last statement or the last block. -/
theorem stripEnd (h : Content style nodes t) : Content style nodes (Text.stripEnd t) := by
  induction h with
  | blank ht =>
    have hnil := Text.dropEndWhile_append_all ht.isBlank []
    rw [List.nil_append] at hnil
    rw [Text.stripEnd, hnil]
    exact blank Spacing.nil
  | semicolon hws hrest ih =>
    rw [Text.stripEnd, Text.dropEndWhile_append_cons rfl]
    exact semicolon hws ih
  | @last ws t ws' node hws ht hend =>
    have hstrip : Text.stripEnd (ws ++ t ++ ws') = ws ++ t :=
      (Text.dropEndWhile_append_all hend.isBlank _).trans (ht.trimmed.stripEnd_append ws)
    have hlast : Content style [node] (ws ++ t ++ []) := last hws ht Spacing.nil
    rw [List.append_nil] at hlast
    rwa [hstrip]
  | statement hws ht hrest ih =>
    rw [Text.stripEnd, Text.dropEndWhile_append_cons rfl]
    exact statement hws ht ih
  | block hws ht hgap hinside hrest ihinside ih =>
    rw [Text.stripEnd, Text.dropEndWhile_append_cons rfl]
    exact block hws ht hgap hinside ih

/-- The characters of a content. -/
theorem isWritten (h : Content style nodes t) : ∀ c ∈ t, Text.isWritten c = true := by
  induction h with
  | blank ht => exact Text.isWritten_spacing ht
  | semicolon hws hrest ih =>
    simp only [List.forall_mem_append, List.forall_mem_cons]
    exact ⟨Text.isWritten_spacing hws, rfl, ih⟩
  | last hws ht hend =>
    simp only [List.forall_mem_append]
    exact ⟨⟨Text.isWritten_spacing hws, ht.isWritten⟩, Text.isWritten_spacing hend⟩
  | statement hws ht hrest ih =>
    simp only [List.forall_mem_append, List.forall_mem_cons]
    exact ⟨⟨Text.isWritten_spacing hws, ht.isWritten⟩, rfl, ih⟩
  | block hws ht hgap hinside hrest ihinside ih =>
    simp only [List.forall_mem_append, List.forall_mem_cons]
    exact ⟨⟨⟨⟨Text.isWritten_spacing hws, ht.isWritten⟩, Text.isWritten_spacing hgap⟩, rfl,
      ihinside⟩, rfl, ih⟩

end Content

/-- Spaces are no statement. -/
theorem readStatement_spaces (source : Source) (p : Position) (ws : Text)
    (stop : Option Position) : readStatement source (spaceComponents p ws) stop = .ok [] := by
  have hstrip : Component.strip (spaceComponents p ws) = [] := by
    unfold spaceComponents
    split <;> rfl
  rw [readStatement, hstrip]

/-! ## Reading a content -/

/-- What follows a content: the end of the text or the brace that closes it. -/
def endsContent (t : Text) : Bool :=
  t.head?.all (· == '}')

theorem endsContent_cases {t : Text} (h : endsContent t = true) :
    t = [] ∨ ∃ rest, t = '}' :: rest := by
  cases t with
  | nil => exact Or.inl rfl
  | cons c cs =>
    have hc : c = '}' := by simpa [endsContent] using h
    exact Or.inr ⟨cs, by rw [hc]⟩

theorem not_space_of_endsContent {t : Text} (h : endsContent t = true) :
    t.head?.any isSpace = false := by
  rcases endsContent_cases h with rfl | ⟨rest, rfl⟩ <;> rfl

/-- A word ends at spaces, whatever may follow a word behind them. -/
theorem endsWord_append {ws rest : Text} (hws : Spacing ws) (hrest : endsWord rest = true) :
    endsWord (ws ++ rest) = true := by
  cases ws with
  | nil => exact hrest
  | cons c cs =>
    have hc : isSpace c = true := isSpace_of_spacing hws c List.mem_cons_self
    simp [endsWord, hc]

theorem endsWord_of_endsContent {t : Text} (h : endsContent t = true) : endsWord t = true := by
  rcases endsContent_cases h with rfl | ⟨rest, rfl⟩ <;> rfl

section Source

variable {path : Option Text} {full : Text}

/-- Components of texts that follow each other, counted from the start. -/
theorem Lexes.chain {pre t u rest : Text} {components more : List Component}
    (ht : Lexes (Position.behind pre) t components (u ++ rest))
    (hu : Lexes (Position.behind (pre ++ t)) u more rest) :
    Lexes (Position.behind pre) (t ++ u) (components ++ more) rest := by
  rw [Position.behind_append] at hu
  exact ht.append hu

/-- A text, the semicolon after it and what follows. -/
theorem Lexes.semicolon {pre t more rest : Text} {components others : List Component}
    (ht : Lexes (Position.behind pre) t components (';' :: (more ++ rest)))
    (hmore : Lexes (Position.behind (pre ++ (t ++ [';']))) more others rest) :
    Lexes (Position.behind pre) (t ++ ';' :: more)
      (components ++ .leaf (Position.behind (pre ++ t)) (.literal [';']) :: others) rest := by
  rw [← List.append_assoc] at hmore
  have hmark := lexes_mark (c := ';') rfl (Position.behind (pre ++ t)) (more ++ rest)
  exact ht.chain (u := [';'] ++ more) (hmark.chain hmore)

/-- A text, the block after it and what follows. -/
theorem Lexes.block {pre t inside more rest : Text} {components content others : List Component}
    (ht : Lexes (Position.behind pre) t components ('{' :: inside ++ '}' :: (more ++ rest)))
    (hinside : Lexes (Position.behind (pre ++ (t ++ ['{']))) inside content
      ('}' :: (more ++ rest)))
    (hmore : Lexes (Position.behind (pre ++ (t ++ '{' :: inside ++ ['}']))) more others rest) :
    Lexes (Position.behind pre) (t ++ '{' :: inside ++ '}' :: more)
      (components ++ .block (Position.behind (pre ++ t)) .curly content :: others) rest := by
  rw [← List.append_assoc, Position.behind_append] at hinside
  -- the text in the braces is one component, which stands where the brace opens
  have hbraces := hinside.braces
  have htext : pre ++ (t ++ '{' :: inside ++ ['}']) = pre ++ t ++ ('{' :: inside ++ ['}']) := by
    simp
  rw [htext] at hmore
  have ht : Lexes (Position.behind pre) t components
      ('{' :: inside ++ ['}'] ++ more ++ rest) := by
    simpa using ht
  simpa using ht.chain (hbraces.chain hmore)

/-- The text of a statement with the spaces before it. -/
theorem Spelled.lexes_lead {pre ws t rest : Text} {components : List Component} (hws : Spacing ws)
    (h : Spelled (Position.behind (pre ++ ws)) t components) (hrest : endsWord rest = true) :
    Lexes (Position.behind pre) (ws ++ t)
      (spaceComponents (Position.behind pre) ws ++ components) rest :=
  Lexes.chain (lexes_spaces (isSpace_of_spacing hws) (h.not_space rest)) (h.lexes rest hrest)

theorem Spelled.inert_lead {p q : Position} {t : Text} {components : List Component}
    (h : Spelled p t components) (ws : Text) : ∀ c ∈ spaceComponents q ws ++ components, Inert c :=
  List.forall_mem_append.2 ⟨inert_spaceComponents q ws, h.inert⟩

/-- **A content is read back.**  Where a content stands in a source, between braces
or up to the end, its components are read as trees that say what its trees say. -/
theorem Content.read {style : Style} {nodes : List Node} {t : Text} (h : Content style nodes t)
    {pre rest : Text} (htext : (Source.ofText path full).text = pre ++ t ++ rest)
    (hrest : endsContent rest = true) :
    ∃ components nodes', Lexes (Position.behind pre) t components rest
      ∧ readContent (Source.ofText path full) [] components = .ok nodes'
      ∧ Node.AreReadBack style nodes nodes' := by
  -- induction on the content: each case reads what stands first, in its place in the
  -- source, and leaves the rest to the induction, with a longer start before it
  induction h generalizing pre rest with
  | @blank ws hws =>
    refine ⟨_, [], lexes_spaces (isSpace_of_spacing hws) (not_space_of_endsContent hrest), ?_, ?_⟩
    · rw [readContent_end (inert_spaceComponents _ ws), readStatement_spaces]
    · rw [Node.AreReadBack]
      trivial
  | @semicolon ws more nodes hws hmore ih =>
    obtain ⟨others, nodes', hothers, hread, hback⟩ :=
      @ih (pre ++ (ws ++ [';'])) rest (by simpa using htext) hrest
    have hspaces : Lexes (Position.behind pre) ws (spaceComponents _ ws)
        (';' :: (more ++ rest)) := lexes_spaces (isSpace_of_spacing hws) rfl
    exact ⟨_, nodes', hspaces.semicolon hothers,
      readContent_semicolon (inert_spaceComponents _ ws) (readStatement_spaces _ _ ws _) hread, hback⟩
  | @last ws t ws' node hws ht hws' =>
    obtain ⟨components, hspelled, hread⟩ :=
      @Statement.read path full (pre ++ ws) t (ws' ++ rest) node ht style (by simpa using htext)
    -- nothing ends the statement, so it is read when the components end
    obtain ⟨node', hback, hread⟩ := hread none (Or.inl rfl)
    have hend := endsWord_append hws' (endsWord_of_endsContent hrest)
    have hspaces : Lexes (Position.behind (pre ++ (ws ++ t))) ws' (spaceComponents _ ws') rest :=
      lexes_spaces (isSpace_of_spacing hws') (not_space_of_endsContent hrest)
    refine ⟨_, [node'], (hspelled.lexes_lead hws hend).chain hspaces, ?_, ?_⟩
    · rw [readContent_end, hread _ (hspelled.strip_spaces ws ws' _ _)]
      exact List.forall_mem_append.2 ⟨hspelled.inert_lead ws, inert_spaceComponents _ ws'⟩
    · rw [Node.AreReadBack, Node.AreReadBack]
      exact ⟨hback, trivial⟩
  | @statement ws t more node nodes hws ht hmore ih =>
    obtain ⟨components, hspelled, hread⟩ :=
      @Statement.read path full (pre ++ ws) t (';' :: more ++ rest) node ht style
        (by simpa using htext)
    obtain ⟨node', hback, hread⟩ := hread _ (Or.inr rfl)
    obtain ⟨others, nodes', hothers, hmore, hbacks⟩ :=
      @ih (pre ++ (ws ++ t ++ [';'])) rest (by simpa using htext) hrest
    refine ⟨_, node' :: nodes', (hspelled.lexes_lead hws rfl).semicolon hothers, ?_, ?_⟩
    · have hread := hread _ (hspelled.strip_lead ws (Position.behind pre))
      rw [List.append_assoc] at hread
      exact readContent_semicolon (hspelled.inert_lead ws) hread hmore
    · rw [Node.AreReadBack]
      exact ⟨hback, hbacks⟩
  | @block ws t gap inside more prelude children nodes hws ht hgap hinside hmore ihinside ih =>
    obtain ⟨components, hspelled, prelude', hback, hread⟩ :=
      @Heading.read path full (pre ++ ws) t gap ('{' :: inside ++ '}' :: more ++ rest) style prelude
        ht hgap (by simpa using htext)
    obtain ⟨content, children', hcontent, hinside, hchildren⟩ :=
      @ihinside (pre ++ (ws ++ t ++ gap ++ ['{'])) ('}' :: (more ++ rest)) (by simpa using htext) rfl
    obtain ⟨others, nodes', hothers, hmore, hbacks⟩ :=
      @ih (pre ++ (ws ++ t ++ gap ++ '{' :: inside ++ ['}'])) rest (by simpa using htext) hrest
    have hspaces : Lexes (Position.behind (pre ++ (ws ++ t))) gap (spaceComponents _ gap)
        ('{' :: inside ++ '}' :: (more ++ rest)) :=
      lexes_spaces (isSpace_of_spacing hgap) rfl
    -- the heading is pending, with the spaces around it, when the block is read
    have hheading := (hspelled.lexes_lead hws (endsWord_append hgap rfl)).chain hspaces
    refine ⟨_, prelude'.toNode children' :: nodes', hheading.block hcontent hothers, ?_, ?_⟩
    · have hread := hread _ (hspelled.strip_spaces ws gap (Position.behind pre)
        (Position.behind (pre ++ (ws ++ t))))
      have hstop : pre ++ ws ++ (t ++ gap) = pre ++ (ws ++ t ++ gap) := by simp
      rw [hstop] at hread
      refine readContent_block ?_ hread hinside hmore
      exact List.forall_mem_append.2 ⟨hspelled.inert_lead ws, inert_spaceComponents _ gap⟩
    · rw [Node.AreReadBack]
      exact ⟨hback children children' hchildren, hbacks⟩

end Source

end NestedSheet
