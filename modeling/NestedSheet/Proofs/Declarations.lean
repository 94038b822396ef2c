import NestedSheet.Component.Declaration
import NestedSheet.Component.Print
import NestedSheet.Proofs.Spelling

/-!
# Declarations and phrases from their components

The components of a phrase are written as the phrase: no two of them need anything
between them.  The components of a declaration are read as its name, its value and
its mark of importance.

Main results:

* `printAll_phrase` — the text of the components of a phrase.
* `exists_declaration` — the components of a declaration and what is read from them.
-/

namespace NestedSheet

open Component

/-! ## Writing phrases -/

theorem printName_word {t : Text} (h : ∀ c ∈ t, c.isLower = true) : printName t = t := by
  induction t with
  | nil => rfl
  | cons c cs ih =>
    obtain ⟨hc, hcs⟩ := List.forall_mem_cons.1 h
    have hstep : printName (c :: cs) = [c] ++ printName cs := by
      rw [printName, List.flatMap_cons, if_pos (Text.isNameChar_of_isLower hc)]
      rfl
    rw [hstep, ih hcs, List.singleton_append]

theorem printIdent_word {t : Text} (h : Text.isPlainWord t = true) : printIdent t = t := by
  obtain ⟨⟨c, cs, rfl, hc⟩, -⟩ := Text.isPlainWord_ends h
  have hcs := (List.forall_mem_cons.1 (Text.isPlainWord_iff.1 h).2).2
  -- a word is neither a lone dash nor does it start with one
  have hdash : c ≠ '-' := Text.ne_of_isLower hc rfl
  have hfirst : printFirst c = [c] := if_pos (Text.isNameStart_of_isLower hc)
  have hprint : printIdent (c :: cs) = printFirst c ++ printName cs := by
    unfold printIdent
    split <;> simp_all
  rw [hprint, hfirst, printName_word hcs, List.singleton_append]

/-- Nothing needs to stand between spaces and what follows them. -/
theorem between_whitespace (t : Text) (e : Edge) : Edge.between (.whitespace t) e = [] := by
  simp [Edge.between, Edge.clash, Edge.endsName, Edge.isMark]

/-- Nothing needs to stand between a name and the spaces after it. -/
theorem between_name {e : Edge} (he : e.endsName = true) (t : Text) :
    Edge.between e (.whitespace t) = [] := by
  cases e <;> first | rfl | cases he

theorem print_whitespace (p : Position) (t : Text) : print (.leaf p (.whitespace t)) = t := by
  rw [print]
  rfl

theorem print_word {t : Text} (h : Text.isPlainWord t = true) (p : Position) :
    print (.leaf p (.ident t)) = t := by
  rw [print]
  exact printIdent_word h

theorem print_atWord {t : Text} (h : Text.isPlainWord t = true) (p : Position) :
    print (.leaf p (.atKeyword t)) = '@' :: t := by
  rw [print]
  exact congrArg ('@' :: ·) (printIdent_word h)

/-- What follows a component is written behind it, with what has to stand between. -/
theorem printAfter_some (e : Edge) (c : Component) (cs : List Component) :
    printAfter (some e) (c :: cs)
      = e.between c.edge ++ print c ++ printAfter (some c.edge) cs := by
  rw [printAfter]

theorem printAfter_none (c : Component) (cs : List Component) :
    printAfter none (c :: cs) = print c ++ printAfter (some c.edge) cs := by
  rw [printAfter]
  rfl

theorem printAfter_spaceComponents {e : Edge} (he : e.endsName = true) (p : Position) (t : Text) :
    printAfter (some e) (spaceComponents p t) = t := by
  unfold spaceComponents
  split
  · next ht => rw [ht, printAfter]
  · rw [printAfter_some, edge, between_name he, print_whitespace, printAfter, List.nil_append,
      List.append_nil]

/-- The words of a phrase after the first one, and spaces at the end. -/
theorem printAfter_tail {e : Edge} (he : e.endsName = true) {words : List Text}
    (hwords : ∀ w ∈ words, Text.isPlainWord w = true) (p q : Position) (close : Text) :
    printAfter (some e) (tailComponents p words ++ spaceComponents q close)
      = Text.spaced words ++ close := by
  induction words generalizing e p with
  | nil => exact printAfter_spaceComponents he q close
  | cons word words ih =>
    obtain ⟨hword, hrest⟩ := List.forall_mem_cons.1 hwords
    have hspaced : Text.spaced (word :: words) = [' '] ++ word ++ Text.spaced words := rfl
    rw [tailComponents, List.cons_append, List.cons_append, printAfter_some, printAfter_some, edge,
      edge, between_name he, between_whitespace, print_whitespace, print_word hword,
      ih rfl hrest, hspaced]
    simp only [List.nil_append, List.append_assoc]

/-- A word or an at-keyword with further words after it, and with spaces around them
all, is written as what it spells. -/
theorem printAll_phrase {first : Component} (hfirst : first.edge.endsName = true)
    {words : List Text} (hwords : ∀ w ∈ words, Text.isPlainWord w = true) (p q r : Position)
    (lead close : Text) :
    printAll (spaceComponents p lead ++ first :: (tailComponents q words ++ spaceComponents r close))
      = lead ++ (print first ++ Text.spaced words) ++ close := by
  have htail := printAfter_tail hfirst hwords q r close
  rw [printAll, spaceComponents]
  -- the spaces before are one component, or none if there are none
  split
  · next hlead =>
    rw [List.nil_append, printAfter_none, htail, hlead, List.nil_append, List.append_assoc]
  · rw [List.singleton_append, printAfter_none, printAfter_some, htail, edge, between_whitespace,
      print_whitespace]
    simp only [List.nil_append, List.append_assoc]

/-! ## The mark of importance -/

/-- Without an exclamation mark nothing of the mark of importance is read. -/
theorem run_plain {components : List Component}
    (h : ∀ c ∈ components, c.isLiteral ['!'] = false) (index : Nat) (rest : List Component) :
    Importance.plain.run index (components ++ rest)
      = Importance.plain.run (index + components.length) rest := by
  induction components generalizing index with
  | nil => rfl
  | cons c cs ih =>
    obtain ⟨hc, hcs⟩ := List.forall_mem_cons.1 h
    rw [List.cons_append, Importance.run, Importance.step, if_neg (by simp [hc]), ih hcs,
      List.length_cons]
    congr 1
    omega

theorem splitImportant_plain {value : List Component}
    (h : ∀ c ∈ value, c.isLiteral ['!'] = false) : splitImportant value = (value, false) := by
  have hrun := run_plain h 0 []
  rw [List.append_nil] at hrun
  rw [splitImportant, hrun]
  rfl

theorem splitImportant_marked {value : List Component}
    (h : ∀ c ∈ value, c.isLiteral ['!'] = false) (p q : Position) :
    splitImportant (value
      ++ [.leaf p (.literal ['!']), .leaf q (.ident "important".toList)]) = (value, true) := by
  -- the mark is read from the place where the value ends
  have hmark : Importance.plain.run (0 + value.length)
      [.leaf p (.literal ['!']), .leaf q (.ident "important".toList)]
        = .important value.length := by
    rw [Nat.zero_add]
    rfl
  rw [splitImportant, run_plain h, hmark]
  simp

/-! ## Declarations -/

/-- The text of a declaration, with the gap that stands before its value. -/
def Declaration.spelling (gap : Text) (d : Declaration) : Text :=
  d.name ++ ':' :: gap ++ d.value ++ if d.important then " !important".toList else []

/-- The mark of importance is a word after an exclamation mark, behind a space. -/
theorem important_eq (t : Text) :
    t ++ " !important".toList = t ++ [' '] ++ '!' :: "important".toList := by
  rw [List.append_assoc]
  rfl

/-- A name, a colon and a value are read as a declaration. -/
theorem readDeclaration_colon (name : Text) (p q : Position) (value : List Component) :
    readDeclaration (.leaf p (.ident name) :: .leaf q (.literal [':']) :: value)
      = .ok ⟨name, (splitImportant value).1, (splitImportant value).2⟩ :=
  rfl

/-- The components of a value, with those of the spaces around it. -/
def valueComponents (p q r s : Position) (gap close word : Text) (words : List Text) :
    List Component :=
  spaceComponents p gap
    ++ .leaf q (.ident word) :: (tailComponents r words ++ spaceComponents s close)

section Value

variable {p q r s : Position} {gap close word : Text} {words : List Text}

/-- A value has no exclamation mark. -/
theorem isLiteral_valueComponents :
    ∀ c ∈ valueComponents p q r s gap close word words, c.isLiteral ['!'] = false := by
  have hspaces : ∀ (p : Position) (t : Text), ∀ c ∈ spaceComponents p t, c.isLiteral ['!'] = false := by
    intro p t c hc
    unfold spaceComponents at hc
    split at hc
    · cases hc
    · rw [List.mem_singleton.1 hc]
      rfl
  have htail : ∀ c ∈ tailComponents r words, c.isLiteral ['!'] = false := by
    induction words generalizing r with
    | nil => simp [tailComponents]
    | cons word words ih =>
      rw [tailComponents, List.forall_mem_cons, List.forall_mem_cons]
      exact ⟨rfl, rfl, ih⟩
  rw [valueComponents, List.forall_mem_append, List.forall_mem_cons, List.forall_mem_append]
  exact ⟨hspaces p gap, rfl, htail, hspaces s close⟩

/-- The text of a value does not have the spaces around it. -/
theorem strip_valueComponents (hword : Text.isPlainWord word = true)
    (hwords : ∀ w ∈ words, Text.isPlainWord w = true) (hgap : Spacing gap) (hclose : Spacing close)
    (htrimmed : Text.Trimmed (word ++ Text.spaced words)) :
    Text.strip (printAll (valueComponents p q r s gap close word words))
      = word ++ Text.spaced words := by
  rw [valueComponents, printAll_phrase rfl hwords, print_word hword]
  exact htrimmed.strip_append hgap.isBlank hclose.isBlank

end Value

/-- A declaration is spelled by components that are read as its name, its value and
its mark of importance. -/
theorem exists_declaration {d : Declaration} (hname : Text.isPlainWord d.name = true)
    (hvalue : Text.isPhrase d.value = true) {gap : Text} (hgap : Spacing gap) (p : Position) :
    ∃ components, Spelled p (d.spelling gap) components
      ∧ components.head?.any isAtKeyword = false
      ∧ ∃ parts, readDeclaration components = .ok parts ∧ parts.name = d.name
        ∧ Text.strip (printAll parts.value) = d.value ∧ parts.important = d.important := by
  have htrimmed := Text.trimmed_of_isPhrase hvalue
  obtain ⟨word, words, hword, hwords, htext⟩ := Text.exists_words hvalue
  rw [Declaration.spelling, htext]
  rw [htext] at htrimmed
  -- the name, the colon and the value, to which the mark may be added
  have hplain := Spelled.mark (c := ':') rfl (by decide) (Spelled.word hname p)
    (Spelled.phrase hword hwords _) hgap
  cases d.important with
  | false =>
    -- nothing stands behind the value
    have hcomponents : ∀ q r s : Position, [Component.leaf p (.ident d.name)]
        ++ .leaf q (.literal [':']) :: spaceComponents r gap
        ++ .leaf s (.ident word) :: tailComponents (s.after word) words
          = .leaf p (.ident d.name) :: .leaf q (.literal [':'])
            :: valueComponents r s (s.after word) {} gap [] word words := by
      intro q r s
      simp [valueComponents, spaceComponents]
    rw [hcomponents] at hplain
    rw [if_neg Bool.false_ne_true, List.append_nil]
    refine ⟨_, hplain, rfl, _, readDeclaration_colon _ _ _ _, rfl, ?_⟩
    rw [splitImportant_plain isLiteral_valueComponents]
    exact ⟨strip_valueComponents hword hwords hgap (by decide) htrimmed, rfl⟩
  | true =>
    have hmark := hplain.spaces (Spelled.bang (t := "important".toList) rfl _)
      (show Spacing [' '] by decide) (List.cons_ne_nil _ _)
    -- the space before the mark belongs to the value
    have hcomponents : ∀ (q r s u : Position) (mark : List Component),
        [Component.leaf p (.ident d.name)] ++ .leaf q (.literal [':']) :: spaceComponents r gap
          ++ .leaf s (.ident word) :: tailComponents (s.after word) words
          ++ spaceComponents u [' '] ++ mark
          = .leaf p (.ident d.name) :: .leaf q (.literal [':'])
            :: (valueComponents r s (s.after word) u gap [' '] word words ++ mark) := by
      intro q r s u mark
      simp [valueComponents]
    rw [hcomponents] at hmark
    rw [if_pos rfl, important_eq]
    refine ⟨_, hmark, rfl, _, readDeclaration_colon _ _ _ _, rfl, ?_⟩
    rw [splitImportant_marked isLiteral_valueComponents]
    exact ⟨strip_valueComponents hword hwords hgap (by decide) htrimmed, rfl⟩

end NestedSheet
