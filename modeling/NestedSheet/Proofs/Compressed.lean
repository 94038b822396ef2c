import NestedSheet.Css
import NestedSheet.Proofs.Clauses
import NestedSheet.Proofs.FixedPoint
import NestedSheet.Proofs.RoundTrip
import NestedSheet.Proofs.Throughout

/-!
# Compressed rules in full

In the compressed style a rule of declarations is meant to be its selectors and then
its declarations, with nothing between them but single characters.  A child of a rule
may also be a directive, which brings a semicolon of its own, and so newlines and
semicolons are cut off at the end of every child.  That reaches into the value of a
declaration that ends in one of the two and is not important: it is *clipped*.

Main results:

* `Rule.layout_declarations` — a rule of declarations is written with each of them
  trimmed.
* `infix_layoutSheet` — the text of every rule of a flat sheet is a part of the text of
  the sheet.
* `compressed_rules_in_full` — after compiling a text, a rule of declarations is written
  in full exactly when none of its declarations is clipped.
-/

namespace NestedSheet

/-! ## What is cut off -/

namespace Text

theorem dropEndWhile_eq_self_iff {p : Char → Bool} {t : Text} :
    dropEndWhile p t = t ↔ t.getLast?.any p = false := by
  rcases List.eq_nil_or_concat t with rfl | ⟨init, c, rfl⟩
  · simp [dropEndWhile]
  · rw [List.concat_eq_append]
    cases hc : p c with
    | true =>
      -- the last character goes, so the text gets shorter
      have hshort : dropEndWhile p (init ++ [c]) = dropEndWhile p init :=
        dropEndWhile_append_all (by simpa using hc) init
      have hlength := congrArg List.length (dropEndWhile_append p init)
      rw [hshort]
      simp only [List.getLast?_append, List.getLast?_singleton, Option.some_or, Option.any_some, hc,
        Bool.true_eq_false, iff_false]
      intro heq
      rw [heq] at hlength
      simp only [List.length_append, List.length_singleton] at hlength
      omega
    | false => simp [dropEndWhile_concat hc, hc]

theorem dropEndWhile_prefix (p : Char → Bool) (t : Text) : dropEndWhile p t <+: t :=
  ⟨_, dropEndWhile_append p t⟩

/-- Trimming the end does not reach a part that ends with a character that is not
trimmed. -/
theorem infix_dropEndWhile {p : Char → Bool} {c : Char} (hc : p c = false) {u t : Text}
    (h : u ++ [c] <:+: t) : u ++ [c] <:+: dropEndWhile p t := by
  obtain ⟨before, after, rfl⟩ := h
  refine ⟨before, dropEndWhile p after, ?_⟩
  have hstop := dropEndWhile_append_cons hc (before ++ u) after
  simp only [List.append_assoc, List.singleton_append] at hstop ⊢
  exact hstop.symm

theorem infix_intercalate {sep t : Text} {texts : List Text} (h : t ∈ texts) :
    t <:+: sep.intercalate texts := by
  induction texts with
  | nil => cases h
  | cons u texts ih =>
    cases texts with
    | nil => simp_all
    | cons v texts =>
      rw [List.intercalate_cons_cons]
      rcases List.mem_cons.1 h with rfl | h
      · exact ⟨[], sep ++ sep.intercalate (v :: texts), by simp⟩
      · exact (ih h).trans (List.suffix_append _ _).isInfix

/-- Texts of which only starts are left are the same when they are joined exactly when
each of them is. -/
theorem intercalate_eq_iff {α : Type} {f g : α → Text} (sep : Text) {xs : List α}
    (h : ∀ x ∈ xs, f x <+: g x) :
    sep.intercalate (xs.map f) = sep.intercalate (xs.map g) ↔ ∀ x ∈ xs, f x = g x := by
  refine ⟨fun heq => ?_, fun heq => by rw [List.map_congr_left heq]⟩
  -- the lengths add up only if no text is shorter
  have hlength : ∀ ys : List α, (∀ x ∈ ys, f x <+: g x) →
      (sep.intercalate (ys.map f)).length ≤ (sep.intercalate (ys.map g)).length := by
    intro ys hys
    induction ys with
    | nil => exact Nat.le_refl _
    | cons y ys ih =>
      have hy := (hys y List.mem_cons_self).length_le
      have hrest := ih fun x hx => hys x (List.mem_cons_of_mem _ hx)
      cases ys with
      | nil => simpa using hy
      | cons z ys =>
        simp only [List.map_cons, List.intercalate_cons_cons, List.length_append] at hrest ⊢
        omega
  induction xs with
  | nil => exact fun x hx => nomatch hx
  | cons x xs ih =>
    obtain ⟨hx, hxs⟩ := List.forall_mem_cons.1 h
    cases xs with
    | nil => simpa using heq
    | cons y xs =>
      have hle := hx.length_le
      have hrest := hlength (y :: xs) hxs
      have htotal := congrArg List.length heq
      simp only [List.map_cons, List.intercalate_cons_cons, List.length_append] at hrest htotal
      have hfirst : f x = g x := hx.eq_of_length (by omega)
      rw [List.map_cons, List.map_cons, List.map_cons, List.map_cons, List.intercalate_cons_cons,
        List.intercalate_cons_cons, hfirst, List.append_cancel_left_eq] at heq
      rw [List.forall_mem_cons]
      exact ⟨hfirst, ih hxs heq⟩

end Text

/-! ## Rules of declarations -/

/-- Is something cut off at the end of the declaration?  A mark of importance protects
what stands before it. -/
def Declaration.isClipped (d : Declaration) : Bool :=
  !d.important && d.value.getLast?.any fun c => c == ';' || c == '\n'

/-- What the compressed style leaves of a declaration in a rule. -/
def Declaration.clipped (d : Declaration) : Text :=
  Text.dropEndWhile (· == ';') (Text.dropEndWhile (· == '\n') (d.spelling []))

/-- The selectors of the rule and the declarations, with nothing left out. -/
def Rule.inFull (rule : Rule) (declarations : List Declaration) : Text :=
  [','].intercalate (rule.resolved.getD []).flatten
    ++ '{' :: [';'].intercalate (declarations.map (Declaration.spelling [])) ++ ['}']

theorem Declaration.clipped_prefix (d : Declaration) : d.clipped <+: d.spelling [] :=
  (Text.dropEndWhile_prefix _ _).trans (Text.dropEndWhile_prefix _ _)

/-- The last character of a declaration is that of its value, unless the declaration is
important. -/
theorem Declaration.getLast?_spelling {d : Declaration} (hvalue : d.value ≠ []) (p : Char → Bool)
    (hp : p 't' = false) :
    (d.spelling []).getLast?.any p = (!d.important && d.value.getLast?.any p) := by
  obtain ⟨init, last, hlast⟩ := (List.eq_nil_or_concat d.value).resolve_left hvalue
  rw [List.concat_eq_append] at hlast
  have hmark : " !important".toList.getLast? = some 't' := by decide
  rw [Declaration.spelling, hlast]
  cases d.important with
  | true => rw [if_pos rfl, List.getLast?_append, hmark, Option.some_or, Option.any_some, hp]; rfl
  | false =>
    rw [if_neg Bool.false_ne_true, List.append_nil, ← List.append_assoc, List.getLast?_concat,
      List.getLast?_concat]
    rfl

theorem Declaration.clipped_eq_iff {d : Declaration} (hvalue : d.value ≠ []) :
    d.clipped = d.spelling [] ↔ d.isClipped = false := by
  have hnewline := Declaration.getLast?_spelling hvalue (· == '\n') rfl
  have hsemicolon := Declaration.getLast?_spelling hvalue (· == ';') rfl
  have hboth : d.isClipped = ((d.spelling []).getLast?.any (· == ';')
      || (d.spelling []).getLast?.any (· == '\n')) := by
    rw [hnewline, hsemicolon, Declaration.isClipped]
    cases d.important <;> cases d.value.getLast? <;> rfl
  rw [hboth, Bool.or_eq_false_iff]
  constructor
  · intro heq
    -- what is left after both is no longer than what is left after the first
    have hfirst : Text.dropEndWhile (· == '\n') (d.spelling []) = d.spelling [] := by
      refine (Text.dropEndWhile_prefix _ _).eq_of_length (Nat.le_antisymm ?_ ?_)
      · exact (Text.dropEndWhile_prefix _ _).length_le
      · have hshort := (Text.dropEndWhile_prefix (· == ';')
          (Text.dropEndWhile (· == '\n') (d.spelling []))).length_le
        rwa [show Text.dropEndWhile (· == ';') _ = d.spelling [] from heq] at hshort
    rw [Declaration.clipped, hfirst] at heq
    exact ⟨Text.dropEndWhile_eq_self_iff.1 heq, Text.dropEndWhile_eq_self_iff.1 hfirst⟩
  · rintro ⟨hlast, hlast'⟩
    rw [Declaration.clipped, Text.dropEndWhile_eq_self_iff.2 hlast',
      Text.dropEndWhile_eq_self_iff.2 hlast]

theorem indent_one : Text.indent 1 = [] :=
  rfl

theorem childTexts_declarations (declarations : List Declaration) :
    Rule.childTexts .compressed 1 (declarations.map .declaration)
      = declarations.map fun d => Text.dropEndWhile (· == '\n') (d.spelling []) := by
  have hone : ∀ d : Declaration, Part.layout .compressed 1 (.declaration d) = d.spelling [] := by
    intro d
    rw [Part.layout, Declaration.layout_compressed, indent_one, List.nil_append]
  rw [Rule.childTexts, List.map_map]
  simp only [Function.comp_def, hone]
  -- the colon of a declaration always stays
  refine List.filter_eq_self.2 (List.forall_mem_map.2 fun d _ => ?_)
  have hcolon := @Text.dropEndWhile_append_cons (· == '\n') ':' rfl d.name
  rw [Declaration.spelling, List.append_assoc, List.append_assoc, List.cons_append, hcolon,
    List.isEmpty_eq_false_iff.2 (List.append_ne_nil_of_right_ne_nil _ (List.cons_ne_nil _ _))]
  rfl

/-- A rule of declarations, with each of them trimmed. -/
theorem Rule.layout_declarations (note : Text) (rule : Rule) (declarations : List Declaration) :
    rule.layout .compressed note 1 (declarations.map .declaration)
      = rule.selectors .compressed 1
        ++ '{' :: [';'].intercalate (declarations.map Declaration.clipped) ++ ['}'] := by
  have hdepth : Rule.childDepth .compressed 1 = 1 := rfl
  rw [Rule.layout, hdepth, childTexts_declarations, List.map_map]
  rfl

/-- No line of selectors is empty. -/
theorem Rule.selectors_compressed {rule : Rule} {resolved : Selector.Resolved}
    (hresolved : rule.resolved = some resolved) (hlines : ∀ line ∈ resolved, line ≠ []) :
    rule.selectors .compressed 1 = [','].intercalate resolved.flatten := by
  rw [← intercalate_flatten [','] hlines, Rule.selectors, hresolved]
  rfl

theorem Rule.layout_eq_inFull_iff {rule : Rule} {resolved : Selector.Resolved}
    (hresolved : rule.resolved = some resolved) (hlines : ∀ line ∈ resolved, line ≠ [])
    {declarations : List Declaration} (hvalues : ∀ d ∈ declarations, d.value ≠ []) (note : Text) :
    rule.layout .compressed note 1 (declarations.map .declaration) = rule.inFull declarations
      ↔ ∀ d ∈ declarations, d.isClipped = false := by
  rw [Rule.layout_declarations, Rule.selectors_compressed hresolved hlines, Rule.inFull, hresolved,
    Option.getD_some, List.append_cancel_right_eq, List.append_cancel_left_eq, List.cons.injEq,
    and_iff_right rfl, Text.intercalate_eq_iff [';'] fun d _ => d.clipped_prefix]
  exact forall₂_congr fun d hd => Declaration.clipped_eq_iff (hvalues d hd)

/-! ## Every rule is a part of the text -/

namespace Node

variable {annotate : Rule → Int → Text}

/-- The text of a rule ends with a brace. -/
theorem exists_layout_rule (annotate : Rule → Int → Text) (p : Rule × List Node) :
    ∃ u, (rule p.1 p.2).layout .compressed annotate 1 = u ++ ['}'] :=
  ⟨_, rfl⟩

theorem infix_childTexts {t : Text} {parts : List Part} (hpart : Part.text t ∈ parts) {u : Text}
    (h : u ++ ['}'] <:+: t) :
    u ++ ['}'] <:+: [';'].intercalate
      ((Rule.childTexts .compressed 1 parts).map (Text.dropEndWhile (· == ';'))) := by
  have hnewlines : u ++ ['}'] <:+: Text.dropEndWhile (· == '\n') t :=
    Text.infix_dropEndWhile rfl h
  have hne : Text.dropEndWhile (· == '\n') t ≠ [] := by
    intro hnil
    rw [hnil, List.infix_nil] at hnewlines
    exact List.append_ne_nil_of_right_ne_nil u (List.cons_ne_nil _ _) hnewlines
  have hmem : Text.dropEndWhile (· == '\n') t ∈ Rule.childTexts .compressed 1 parts :=
    List.mem_filter.2 ⟨List.mem_map.2 ⟨_, hpart, rfl⟩, by simpa using hne⟩
  exact (Text.infix_dropEndWhile rfl hnewlines).trans
    (Text.infix_intercalate (List.mem_map_of_mem hmem))

theorem infix_compressedOf {t : Text} {parts : List Part} (h : Part.text t ∈ parts) :
    t <:+: compressedOf parts := by
  fun_induction compressedOf parts with
  | case1 => cases h
  | case2 part =>
    rw [← List.mem_singleton.1 h]
    exact List.infix_refl t
  | case3 d next parts ih =>
    rcases List.mem_cons.1 h with h | h
    · cases h
    · exact (ih h).trans ((List.suffix_cons _ _).isInfix.trans (List.suffix_append _ _).isInfix)
  | case4 t' next parts ih =>
    rcases List.mem_cons.1 h with h | h
    · cases h
      exact (List.prefix_append _ _).isInfix
    · exact (ih h).trans (List.suffix_append _ _).isInfix

mutual

theorem infix_part : ∀ {node : Node}, (∀ q ∈ rules node, q.1.depth = 0) →
    ∀ p ∈ rules node, ∃ t, part .compressed annotate 1 node = .text t
      ∧ (rule p.1 p.2).layout .compressed annotate 1 <:+: t
  | rule r children, hdepth, p, hp => by
    rcases List.mem_cons.1 hp with rfl | hp
    · exact ⟨_, rfl, List.infix_refl _⟩
    · rw [rules, List.forall_mem_cons] at hdepth
      obtain ⟨t, ht, hwithin⟩ := infix_parts hdepth.2 p hp
      obtain ⟨u, hu⟩ := exists_layout_rule annotate p
      rw [hu] at hwithin ⊢
      -- the children stand between the braces of the rule
      refine ⟨_, rfl, (infix_childTexts ht hwithin).trans ?_⟩
      exact (List.suffix_cons _ _).isInfix.trans
        ((List.suffix_append _ _).isInfix.trans (List.prefix_append _ _).isInfix)
  | declaration _, _, p, hp => nomatch hp
  | directive _, _, p, hp => nomatch hp
  | block d children, hdepth, p, hp => by
    obtain ⟨t, ht, hwithin⟩ := infix_parts hdepth p hp
    obtain ⟨u, hu⟩ := exists_layout_rule annotate p
    have hne : children.isEmpty = false := by
      cases children with
      | nil => cases hp
      | cons child children => rfl
    rw [hu] at hwithin ⊢
    refine ⟨_, by rw [part, if_neg (by simp [hne])], ?_⟩
    have hinside : u ++ ['}'] <:+: d.value ++ '{' :: compressedOf (parts .compressed annotate 1 children) :=
      (hwithin.trans (infix_compressedOf ht)).trans
        ((List.suffix_cons _ _).isInfix.trans (List.suffix_append _ _).isInfix)
    exact (Text.infix_dropEndWhile rfl hinside).trans (List.prefix_append _ _).isInfix
  | sheet _ _, _, p, hp => nomatch hp

theorem infix_parts : ∀ {nodes : List Node}, (∀ q ∈ rulesOf nodes, q.1.depth = 0) →
    ∀ p ∈ rulesOf nodes, ∃ t, Part.text t ∈ parts .compressed annotate 1 nodes
      ∧ (rule p.1 p.2).layout .compressed annotate 1 <:+: t
  | [], _, p, hp => nomatch hp
  | node :: nodes, hdepth, p, hp => by
    rw [rulesOf, List.forall_mem_append] at hdepth
    rw [parts]
    rcases List.mem_append.1 hp with hp | hp
    · obtain ⟨t, ht, hwithin⟩ := infix_part hdepth.1 p hp
      have hvisible : node.visible = true := by
        cases node <;> first | rfl | cases hp
      rw [if_pos hvisible]
      exact ⟨t, ht ▸ List.mem_cons_self, hwithin⟩
    · obtain ⟨t, ht, hwithin⟩ := infix_parts hdepth.2 p hp
      refine ⟨t, ?_, hwithin⟩
      split
      · exact List.mem_cons_of_mem _ ht
      · exact ht

end

end Node

/-- The text of every rule of a sheet is a part of the text of the sheet. -/
theorem infix_layoutSheet {annotate : Rule → Int → Text} {nodes : List Node}
    (hdepth : ∀ q ∈ Node.rulesOf nodes, q.1.depth = 0) {p : Rule × List Node}
    (hp : p ∈ Node.rulesOf nodes) :
    (Node.rule p.1 p.2).layout .compressed annotate 1 <:+: layoutSheet .compressed annotate nodes := by
  obtain ⟨t, ht, hwithin⟩ := Node.infix_parts hdepth p hp
  obtain ⟨u, hu⟩ := Node.exists_layout_rule annotate p
  rw [hu] at hwithin ⊢
  have hbody : u ++ ['}'] <:+: (Node.parts .compressed annotate 1 nodes).flatMap
      (Part.layout .compressed 1) :=
    hwithin.trans (List.infix_of_mem_flatten (List.mem_map.2 ⟨_, ht, rfl⟩))
  have hstrip := @Text.infix_dropEndWhile Text.isBlank '}' (by decide) _ _ hbody
  unfold layoutSheet
  simp only [if_true]
  split
  · next hempty =>
    -- a text with the rule in it is not empty
    rw [← Text.stripEnd, List.isEmpty_iff.1 hempty, List.infix_nil] at hstrip
    exact absurd hstrip (List.append_ne_nil_of_right_ne_nil u (List.cons_ne_nil _ _))
  · exact hstrip.trans (List.prefix_append _ _).isInfix

/-! ## From the text to the rules -/

/-- The rule is not indented and has alternatives in every line. -/
def Rule.IsPrepared (rule : Rule) : Prop :=
  rule.depth = 0 ∧ ∃ lines, rule.parsed = some lines ∧ ∀ line ∈ lines, line ≠ []

/-- The rule is not indented and has selectors in every line. -/
def Rule.IsWritable (rule : Rule) : Prop :=
  rule.depth = 0 ∧ ∃ resolved, rule.resolved = some resolved ∧ ∀ line ∈ resolved, line ≠ []

theorem Sheet.depth_of_read {path : Option Text} {t : Text} {sheet : Sheet}
    (h : Sheet.read path t = .ok sheet) : ∀ p ∈ Node.rulesOf sheet.children, p.1.depth = 0 := by
  rintro ⟨r, children⟩ hp
  obtain ⟨clause, -, hread⟩ :=
    exists_clause_of_mem (Sheet.read_clauses h) (Node.mem_inOrderOf_of_mem_rulesOf hp)
  cases hread
  rfl

theorem Selector.resolve_ne_nil {lines : List Selector.Line} {outer : Option Selector.Resolved}
    {resolved : Selector.Resolved} (h : Selector.resolve lines outer = some resolved)
    (hlines : ∀ line ∈ lines, line ≠ [])
    (houter : ∀ selectors, outer = some selectors → ∀ line ∈ selectors, line ≠ []) :
    ∀ line ∈ resolved, line ≠ [] := by
  cases outer with
  | none =>
    unfold Selector.resolve at h
    simp only at h
    split at h
    · cases h
    · cases h
      exact List.forall_mem_map.2 fun line hline => by simpa using hlines line hline
  | some selectors =>
    cases h
    intro line hline
    obtain ⟨outerLine, houterLine, hline⟩ := List.mem_flatMap.1 hline
    obtain ⟨inner, hinner, rfl⟩ := List.mem_map.1 hline
    -- every selector of one line meets every alternative of the other
    obtain ⟨first, others, hfirst⟩ := List.exists_cons_of_ne_nil
      (houter selectors rfl outerLine houterLine)
    simp [Selector.Line.inside, hfirst, hlines inner hinner]

theorem Rule.IsPrepared.isWritable {r : Rule} {around : Option Selector.Resolved}
    {resolved : Selector.Resolved} (h : r.IsPrepared)
    (haround : ∀ selectors, around = some selectors → ∀ line ∈ selectors, line ≠ [])
    (hresolved : r.resolve around = .ok resolved) :
    (∀ line ∈ resolved, line ≠ []) ∧ Rule.IsWritable { r with resolved := some resolved } := by
  obtain ⟨hdepth, lines, hparsed, hlines⟩ := h
  have hall : ∀ line ∈ resolved, line ≠ [] :=
    Selector.resolve_ne_nil ((Node.resolve_eq_of_parsed hparsed).1 hresolved) hlines haround
  exact ⟨hall, hdepth, resolved, rfl, hall⟩

/-- What is read from a text is flattened to rules that can be written. -/
theorem Sheet.isWritable_of_read {path : Option Text} {t : Text} {sheet flat : Sheet}
    {options : Options} (hstyle : options.style = .compressed) (hread : Sheet.read path t = .ok sheet)
    (hflat : sheet.compile options = .ok flat) :
    ∀ p ∈ Node.rulesOf flat.children, p.1.IsWritable := by
  obtain ⟨nodes, hnodes, rfl⟩ := Sheet.compile_eq_ok.1 hflat
  obtain ⟨prepared, hprepared, hresolved⟩ := steps_eq_ok.1 hnodes
  -- preparing reads at least one alternative in every line
  have hready : ∀ p ∈ Node.rulesOf prepared, p.1.IsPrepared := by
    refine @Node.prepareAll_rules _ (·.depth = 0) Rule.IsPrepared (fun r lines hdepth _ => ?_) _ _
      hprepared (Sheet.depth_of_read hread)
    exact ⟨hdepth, _, rfl, List.forall_mem_map.2 fun line _ => Selector.parse_ne_nil line⟩
  have hwritable : ∀ p ∈ Node.rulesOf nodes, p.1.IsWritable :=
    Node.resolveAll_rules (fun r around resolved h => h.isWritable) hresolved hready (by simp)
  refine Node.flattenAll_rules (fun r isEnd h => h) (fun hnested => ?_) false hwritable
  rw [hstyle] at hnested
  cases hnested

/-! ## Rendering a rule of declarations -/

theorem Node.parts_declarations {style : Style} {annotate : Rule → Int → Text} {depth : Int}
    {declarations : List Declaration} (h : ∀ d ∈ declarations, d.value ≠ []) :
    Node.parts style annotate depth (declarations.map .declaration)
      = declarations.map .declaration := by
  induction declarations with
  | nil => rfl
  | cons d declarations ih =>
    obtain ⟨hd, hrest⟩ := List.forall_mem_cons.1 h
    have hvisible : (Node.declaration d).visible = true := by simpa [Node.visible] using hd
    rw [List.map_cons, List.map_cons, Node.parts, if_pos hvisible, ih hrest]
    rfl

theorem Node.layout_rule {annotate : Rule → Int → Text} {r : Rule} (hdepth : r.depth = 0)
    {declarations : List Declaration} (h : ∀ d ∈ declarations, d.value ≠ []) :
    ∃ note, (Node.rule r (declarations.map .declaration)).layout .compressed annotate 1
      = r.layout .compressed note 1 (declarations.map .declaration) := by
  refine ⟨annotate r (1 + r.depth), ?_⟩
  rw [Node.layout, Node.part, Node.parts_declarations h, hdepth]
  rfl

theorem Node.render_rule {options : Options} {r : Rule} {resolved : Selector.Resolved}
    (hresolved : r.resolved = some resolved) (declarations : List Declaration) (depth : Int) :
    (Node.rule r (declarations.map .declaration)).render options depth
      = .ok ((Node.rule r (declarations.map .declaration)).layout options.style options.annotate
        depth) := by
  have hwritable : Node.first? Node.isUnwritable (Node.rule r (declarations.map .declaration))
      = none := by
    refine Node.first?_rule_eq_none.2 ⟨by simp [Node.isUnwritable, hresolved], ?_⟩
    exact Node.firstOf?_eq_none.2 (List.forall_mem_map.2 fun d _ => rfl)
  rw [Node.render, hwritable]
  · rfl
  · simp

/-- **Compressed rules contain their declarations in full, unless one of them is
clipped.**  Let a text compile in the compressed style.  Then it has a text in this
style, and each rule whose children are declarations is written somewhere in it.  What is
written is the selectors of all lines with commas between them and, in braces, the
declarations with semicolons between them, names and values as they are, if and only if
no value that ends with a semicolon or a newline stands without a mark of importance. -/
theorem compressed_rules_in_full {options : Options} (hstyle : options.style = .compressed)
    {path : Option Text} {t : Text} {flat : Sheet} (h : compileText options path t = .ok flat) :
    ∃ css, cssOfText options path t = .ok css ∧ ∀ r declarations,
      (r, declarations.map Node.declaration) ∈ Node.rulesOf flat.children →
      ∃ text, (Node.rule r (declarations.map Node.declaration)).render options 1 = .ok text
        ∧ text <:+: css
        ∧ (text = r.inFull declarations ↔ ∀ d ∈ declarations, d.isClipped = false) := by
  obtain ⟨sheet, hread, hflat⟩ := steps_eq_ok.1 h
  rw [mapError_eq_ok] at hread hflat
  have hwritable := Sheet.isWritable_of_read hstyle hread hflat
  obtain ⟨nodes, hnodes, rfl⟩ := Sheet.compile_eq_ok.1 hflat
  rw [hstyle] at hwritable ⊢
  refine ⟨layoutSheet .compressed options.annotate (Node.flattenAll .compressed false nodes),
    ?_, fun r declarations hmem => ?_⟩
  · refine steps_eq_ok.2 ⟨sheet, mapError_eq_ok.2 hread, mapError_eq_ok.2 ?_⟩
    exact Sheet.toCss_eq_ok.2 ⟨nodes, hnodes, by rw [hstyle]⟩
  · obtain ⟨hdepth, resolved, hresolved, hlines⟩ := hwritable _ hmem
    -- what a flat rule has is visible
    have hvalues : ∀ d ∈ declarations, d.value ≠ [] := by
      intro d hd
      obtain ⟨q, -, -, hown, -⟩ := Node.exists_of_mem_flattenAll hmem
      have hchild : Node.declaration d ∈ Node.own .compressed q.2 :=
        hown ▸ List.mem_map_of_mem hd
      simpa [Node.visible] using (Node.isOwn_iff.1 (Node.isOwn_of_mem_own hchild)).2
    obtain ⟨note, hnote⟩ := @Node.layout_rule options.annotate r hdepth declarations hvalues
    refine ⟨_, Node.render_rule hresolved declarations 1, ?_, ?_⟩
    · rw [hstyle]
      exact infix_layoutSheet (fun q hq => (hwritable q hq).1) hmem
    · rw [hstyle, hnote]
      exact Rule.layout_eq_inFull_iff hresolved hlines hvalues note

/-- A semicolon at the end of a value, with a mark of importance that protects it. -/
theorem compressed_rules_in_full_marked :
    ∃ flat css r d,
      compileText { style := .compressed } none "a\x7bb:c\\;!important\x7d".toList = .ok flat
      ∧ cssOfText { style := .compressed } none "a\x7bb:c\\;!important\x7d".toList = .ok css
      ∧ (r, [Node.declaration d]) ∈ Node.rulesOf flat.children
      ∧ r.inFull [d] = "a\x7bb:c\\; !important\x7d".toList ∧ r.inFull [d] <:+: css := by
  have hflat : compileText { style := .compressed } none "a\x7bb:c\\;!important\x7d".toList
      = .ok { children := [.rule
        ⟨[['a']], some [[[.literal ['a']]]], some [[['a']]], 0, true, ⟨some 1, none⟩⟩
        [.declaration ⟨['b'], ['c', '\\', ';'], true, ⟨some 1, none⟩⟩]] } := by decide +kernel
  obtain ⟨css, hcss, hrules⟩ := compressed_rules_in_full rfl hflat
  obtain ⟨written, -, hwithin, hiff⟩ := hrules _ [_] List.mem_cons_self
  exact ⟨_, css, _, _, hflat, hcss, List.mem_cons_self, by decide,
    hiff.2 (List.forall_mem_singleton.2 rfl) ▸ hwithin⟩

/-- Without the mark the semicolon is cut off, and only the backslash before it stays:
`a{b:c\;}` loses a character of a value, with no directive in the rule. -/
theorem compressed_rule_clipped :
    ∃ flat r d, compileText { style := .compressed } none "a\x7bb:c\\;\x7d".toList = .ok flat
      ∧ (r, [Node.declaration d]) ∈ Node.rulesOf flat.children
      ∧ r.inFull [d] = "a\x7bb:c\\;\x7d".toList
      ∧ (Node.rule r [Node.declaration d]).render { style := .compressed } 1
        = .ok "a\x7bb:c\\\x7d".toList := by
  have hflat : compileText { style := .compressed } none "a\x7bb:c\\;\x7d".toList
      = .ok { children := [.rule
        ⟨[['a']], some [[[.literal ['a']]]], some [[['a']]], 0, true, ⟨some 1, none⟩⟩
        [.declaration ⟨['b'], ['c', '\\', ';'], false, ⟨some 1, none⟩⟩]] } := by decide +kernel
  exact ⟨_, _, _, hflat, List.mem_cons_self, by decide, by decide +kernel⟩

end NestedSheet
