import NestedSheet.Proofs.Declarations
import NestedSheet.Proofs.Neighbours
import NestedSheet.Proofs.Nesting

/-!
# Components as they are printed

Components are printed as their lexemes are (`textOf_written`), and two runs of whitespace
with a dropped comment between them are printed as one run.  `gatherAll` joins such runs
at every level; it changes neither the text of the lexemes (`textOf_written_gathered`) nor
what can be said of each of them (`AreOrderly.gathered`).

Main result: `unplacedOf_printAll`, printed components are read back with their runs of
whitespace joined, if their leaves are printed faithfully and no comment is missing
between them.
-/

namespace NestedSheet

open Component

namespace Lexeme

/-! ## Joining whitespace -/

/-- Puts a lexeme before others, and joins it with the first one if both are whitespace. -/
def attach (a : Lexeme) : List Lexeme → List Lexeme
  | [] => [a]
  | b :: rest =>
    if a.isGap && b.isGap then .leaf (.whitespace (a.print ++ b.print)) :: rest else a :: b :: rest

/-- The lexemes with neighbouring runs of whitespace joined. -/
def gathered (list : List Lexeme) : List Lexeme :=
  list.foldr attach []

@[simp] theorem gathered_nil : gathered [] = [] := rfl

@[simp] theorem gathered_cons (a : Lexeme) (list : List Lexeme) :
    gathered (a :: list) = attach a (gathered list) := rfl

/-- Either a lexeme stays by itself, or it is joined with the next one. -/
theorem attach_cases (a : Lexeme) (list : List Lexeme) :
    (attach a list = a :: list ∧ (a.isGap && list.head?.any isGap) = false)
      ∨ ∃ b rest, a.isGap = true ∧ b.isGap = true ∧ list = b :: rest
        ∧ attach a list = .leaf (.whitespace (a.print ++ b.print)) :: rest := by
  cases list with
  | nil => exact Or.inl ⟨rfl, by simp⟩
  | cons b rest =>
    rw [attach]
    split
    · next hgaps =>
      rw [Bool.and_eq_true] at hgaps
      exact Or.inr ⟨b, rest, hgaps.1, hgaps.2, rfl, rfl⟩
    · next hgaps => exact Or.inl ⟨rfl, by simpa using hgaps⟩

theorem attach_of_not_gap {a : Lexeme} (ha : a.isGap = false) (list : List Lexeme) :
    attach a list = a :: list := by
  rcases attach_cases a list with ⟨hself, -⟩ | ⟨b, rest, hgap, -⟩
  · exact hself
  · rw [ha] at hgap
    cases hgap

theorem gathered_append {a : Lexeme} (ha : a.isGap = false) (list rest : List Lexeme) :
    gathered (list ++ a :: rest) = gathered list ++ a :: gathered rest := by
  induction list with
  | nil => exact attach_of_not_gap ha (gathered rest)
  | cons b list ih =>
    rw [List.cons_append, gathered_cons, gathered_cons, ih]
    cases gathered list with
    | nil => simp [attach, ha]
    | cons c more =>
      rw [List.cons_append, attach, attach]
      split <;> rfl

theorem exists_whitespace {a : Lexeme} (ha : a.isGap = true) : ∃ t, a = .leaf (.whitespace t) := by
  unfold isGap at ha
  split at ha
  · exact ⟨_, rfl⟩
  · cases ha

theorem clash_whitespace (e : Edge) (t : Text) : e.clash (.whitespace t) = false := by
  simp [Edge.clash, Edge.startsIdentLike, Edge.startsNumber, Edge.isMark, Edge.isLiteral]

/-- Whitespace is printed as it is, and what follows starts anew. -/
theorem textOf_written_gap {a : Lexeme} (ha : a.isGap = true) (previous : Option Edge)
    (rest : List Lexeme) : Stretch.textOf (Stretch.written previous (a :: rest))
      = a.print ++ Stretch.textOf (Stretch.written none rest) := by
  obtain ⟨t, rfl⟩ := exists_whitespace ha
  have hprevious : previous.any (·.clash (edge (.leaf (.whitespace t)))) = false := by
    cases previous with
    | none => rfl
    | some e => exact clash_whitespace e t
  rw [Stretch.written, hprevious, if_neg Bool.false_ne_true, List.nil_append, Stretch.textOf_cons]
  cases rest with
  | nil => rfl
  | cons b rest => rfl

/-- Joining whitespace does not change what is printed. -/
theorem textOf_written_gathered (list : List Lexeme) : ∀ previous,
    Stretch.textOf (Stretch.written previous (gathered list))
      = Stretch.textOf (Stretch.written previous list) := by
  induction list with
  | nil => exact fun _ => rfl
  | cons a list ih =>
    intro previous
    have hcons : Stretch.textOf (Stretch.written previous (a :: gathered list))
        = Stretch.textOf (Stretch.written previous (a :: list)) := by
      rw [Stretch.written, Stretch.written, Stretch.textOf_append, Stretch.textOf_append,
        Stretch.textOf_cons, Stretch.textOf_cons, ih]
    rw [gathered_cons, ← hcons]
    rcases attach_cases a (gathered list) with ⟨hself, -⟩ | ⟨b, rest, ha, hb, hlist, hjoined⟩
    · rw [hself]
    · rw [hjoined, hlist, textOf_written_gap rfl, textOf_written_gap ha, textOf_written_gap hb,
        ← List.append_assoc]
      rfl

/-! ## What joining whitespace keeps -/

theorem areSpaced_gathered (list : List Lexeme) : areSpaced (gathered list) = true := by
  induction list with
  | nil => rfl
  | cons a list ih =>
    rcases attach_cases a (gathered list) with ⟨hself, hgap⟩ | ⟨b, rest, ha, hb, hlist, hjoined⟩
    · rw [gathered_cons, hself, areSpaced, hgap, ih]
      rfl
    · rw [gathered_cons, hjoined]
      rw [hlist, areSpaced, hb] at ih
      exact ih

theorem forall_gathered {p : Lexeme → Prop} {list : List Lexeme} (h : ∀ a ∈ list, p a)
    (hjoin : ∀ t u, p (.leaf (.whitespace t)) → p (.leaf (.whitespace u)) →
      p (.leaf (.whitespace (t ++ u)))) : ∀ a ∈ gathered list, p a := by
  induction list with
  | nil => exact fun _ ha => nomatch ha
  | cons a list ih =>
    obtain ⟨ha, hlist⟩ := List.forall_mem_cons.1 h
    have hrest := ih hlist
    rw [gathered_cons]
    rcases attach_cases a (gathered list) with ⟨hself, -⟩ | ⟨b, rest, hgap, hgap', heq, hjoined⟩
    · rw [hself]
      exact List.forall_mem_cons.2 ⟨ha, hrest⟩
    · obtain ⟨t, rfl⟩ := exists_whitespace hgap
      obtain ⟨u, rfl⟩ := exists_whitespace hgap'
      rw [heq, List.forall_mem_cons] at hrest
      rw [hjoined]
      exact List.forall_mem_cons.2 ⟨hjoin t u ha hrest.1, hrest.2⟩

theorem startsString_gathered (list : List Lexeme) : startsString (gathered list) = startsString list := by
  induction list with
  | nil => rfl
  | cons a list ih =>
    have hcons : ∀ others, startsString (a :: others)
        = if a.isGap then startsString others else a.isString := by
      intro others
      cases hgap : a.isGap <;> simp [startsString, hgap]
    rw [gathered_cons, hcons, ← ih]
    rcases attach_cases a (gathered list) with ⟨hself, -⟩ | ⟨b, rest, ha, hb, hlist, hjoined⟩
    · rw [hself, hcons]
    · rw [hjoined, hlist, ha, if_pos rfl, startsString, startsString, List.dropWhile_cons_of_pos hb,
        List.dropWhile_cons_of_pos rfl]

theorem quotesUrls_gathered {list : List Lexeme} (h : quotesUrls list = true) :
    quotesUrls (gathered list) = true := by
  induction list with
  | nil => rfl
  | cons a list ih =>
    rw [quotesUrls, Bool.and_eq_true] at h
    have hrest := ih h.2
    rcases attach_cases a (gathered list) with ⟨hself, -⟩ | ⟨b, rest, ha, hb, hlist, hjoined⟩
    · rw [gathered_cons, hself, quotesUrls, startsString_gathered, Bool.and_eq_true]
      exact ⟨h.1, hrest⟩
    · rw [hlist, quotesUrls, Bool.and_eq_true] at hrest
      rw [gathered_cons, hjoined]
      exact hrest.2

/-- The lexemes of a text stay in order when their whitespace is joined. -/
theorem AreOrderly.gathered {list : List Lexeme} (hwell : ∀ a ∈ list, a.WellFormed)
    (hclean : ∀ a ∈ list, a.isClean = true) (hquoted : quotesUrls list = true) :
    AreOrderly (gathered list) where
  well := forall_gathered hwell fun _ _ ht hu =>
    ⟨List.append_ne_nil_of_left_ne_nil ht.1 _, List.forall_mem_append.2 ⟨ht.2, hu.2⟩⟩
  clean := forall_gathered hclean fun _ _ _ _ => rfl
  spaced := areSpaced_gathered list
  quoted := quotesUrls_gathered hquoted

/-- Is every backslash that stands for itself before a newline? -/
def newlinesFollow : List Lexeme → Bool
  | [] => true
  | a :: rest =>
    (a != literal ['\\'] || rest.head?.any (·.edge.startsNewline)) && newlinesFollow rest

theorem newlinesFollow_of_areApart {list : List Lexeme} (h : areApart list = true) :
    newlinesFollow list = true := by
  induction list with
  | nil => rfl
  | cons a list ih =>
    obtain ⟨hjoins, hrest⟩ := Bool.and_eq_true_iff.1 h
    rw [newlinesFollow, ih hrest, Bool.and_true, Bool.or_eq_true, bne_iff_ne]
    refine or_iff_not_imp_left.2 fun ha => ?_
    rw [not_not.1 ha] at hjoins
    simpa [joins, literal] using hjoins

theorem newlinesFollow_append {list rest : List Lexeme} (h : newlinesFollow (list ++ rest) = true) :
    newlinesFollow rest = true := by
  induction list with
  | nil => exact h
  | cons a list ih => exact ih (Bool.and_eq_true_iff.1 h).2

theorem startsNewline_gathered {list : List Lexeme} (hwell : ∀ a ∈ list, a.WellFormed) :
    (gathered list).head?.any (·.edge.startsNewline) = list.head?.any (·.edge.startsNewline) := by
  cases list with
  | nil => rfl
  | cons a list =>
    rcases attach_cases a (gathered list) with ⟨hself, -⟩ | ⟨b, rest, ha, hb, hlist, hjoined⟩
    · rw [gathered_cons, hself]
      rfl
    · rw [gathered_cons, hjoined]
      obtain ⟨t, rfl⟩ := exists_whitespace ha
      -- the first of the runs has a first character
      obtain ⟨c, cs, rfl⟩ := List.exists_cons_of_ne_nil (hwell _ List.mem_cons_self).1
      by_cases hc : c = '\n'
      · subst hc
        rfl
      · have hnot : ∀ u : Text, Edge.startsNewline (.whitespace (c :: u)) = false := by
          intro u
          unfold Edge.startsNewline
          split
          · next heq => exact absurd (List.cons.inj (Edge.whitespace.inj heq)).1 hc
          · rfl
        exact (hnot _).trans (hnot _).symm

theorem newlinesFollow_of_gathered {list : List Lexeme} (hwell : ∀ a ∈ list, a.WellFormed)
    (h : newlinesFollow (gathered list) = true) : newlinesFollow list = true := by
  induction list with
  | nil => rfl
  | cons a list ih =>
    obtain ⟨-, hrest⟩ := List.forall_mem_cons.1 hwell
    rw [newlinesFollow, Bool.and_eq_true, ← startsNewline_gathered hrest]
    rcases attach_cases a (gathered list) with ⟨hself, -⟩ | ⟨b, rest, ha, hb, hlist, hjoined⟩
    · rw [gathered_cons, hself, newlinesFollow, Bool.and_eq_true] at h
      exact ⟨h.1, ih hrest h.2⟩
    · rw [gathered_cons, hjoined, newlinesFollow, Bool.and_eq_true] at h
      obtain ⟨t, rfl⟩ := exists_whitespace ha
      obtain ⟨u, rfl⟩ := exists_whitespace hb
      refine ⟨rfl, ih hrest ?_⟩
      rw [hlist, newlinesFollow, h.2]
      rfl

theorem isNormal_print {a : Lexeme} (hwell : a.WellFormed) (hclean : a.isClean = true) :
    ∀ c ∈ a.print, isNormal c = true := by
  cases a with
  | leaf l =>
    rw [isClean, Option.isNone_iff_eq_none] at hclean
    exact isNormal_printLeaf hwell hclean
  | comment text => cases hclean
  | function name => exact List.forall_mem_append.2 ⟨isNormal_printIdent hwell.2, List.all_eq_true.1 rfl⟩
  | opening bracket => cases bracket <;> exact List.all_eq_true.1 rfl
  | closing bracket => cases bracket <;> exact List.all_eq_true.1 rfl

/-- The text of printed lexemes is a normal one. -/
theorem isNormal_written {list : List Lexeme}
    (hwell : ∀ a ∈ list, a.WellFormed) (hclean : ∀ a ∈ list, a.isClean = true) :
    ∀ previous, ∀ c ∈ Stretch.textOf (Stretch.written previous list), isNormal c = true := by
  induction list with
  | nil => exact fun _ => List.forall_mem_nil _
  | cons a rest ih =>
    intro previous
    obtain ⟨ha, hrest⟩ := List.forall_mem_cons.1 hwell
    obtain ⟨hcleana, hcleanrest⟩ := List.forall_mem_cons.1 hclean
    rw [Stretch.written, Stretch.textOf_append, Stretch.textOf_cons, List.forall_mem_append,
      List.forall_mem_append]
    refine ⟨?_, isNormal_print ha hcleana, ih hrest hcleanrest a.edge?⟩
    split
    · exact List.all_eq_true.1 rfl
    · exact List.forall_mem_nil _

end Lexeme

namespace Component

/-! ## Components and their lexemes -/

/-- The lexemes of components, without positions. -/
def sequence (components : List Component) : List Lexeme :=
  (lexemesOf components).map Prod.snd

@[simp] theorem sequence_nil : sequence [] = [] := rfl

theorem sequence_append (components others : List Component) :
    sequence (components ++ others) = sequence components ++ sequence others := by
  rw [sequence, lexemesOf_append, List.map_append]
  rfl

theorem sequence_cons (c : Component) (components : List Component) :
    sequence (c :: components) = sequence [c] ++ sequence components :=
  sequence_append [c] components

theorem sequence_leaf (p : Position) {l : Leaf} (h : l.fault? = none) :
    sequence [leaf p l] = [.leaf l] := by
  rw [sequence, lexemesOf_singleton, lexemes, leafLexeme_faultless h]
  rfl

theorem sequence_function (p : Position) (name : Text) (arguments : List Component)
    (rest : List Lexeme) : sequence [function p name arguments] ++ rest
      = .function name :: (sequence arguments ++ .closing .round :: rest) := by
  rw [sequence, lexemesOf_singleton, lexemes, List.map_cons, List.map_append, List.cons_append,
    List.append_assoc]
  rfl

theorem sequence_block (p : Position) (bracket : Bracket) (content : List Component)
    (rest : List Lexeme) : sequence [block p bracket content] ++ rest
      = .opening bracket :: (sequence content ++ .closing bracket :: rest) := by
  rw [sequence, lexemesOf_singleton, lexemes, List.map_cons, List.map_append, List.cons_append,
    List.append_assoc]
  rfl

/-! ## The text of components -/

mutual

theorem cutOff_faultless : ∀ {c : Component}, isFaultless c = true → cutOff c = false
  | leaf p l, h => by
    rw [isFaultless, Option.isNone_iff_eq_none] at h
    cases l with
    | string value closed =>
      cases closed with
      | true => rw [cutOff, Bool.not_true]
      | false => cases h
    | _ => rw [cutOff]; exact nofun
  | function p name arguments, h => by
    rw [isFaultless] at h
    rw [cutOff, endsInString_faultless h]
  | block p bracket content, h => by rw [cutOff]

/-- Components without a fault do not end inside of a string. -/
theorem endsInString_faultless : ∀ {components : List Component}, areFaultless components = true →
    endsInString components = false
  | [], _ => by rw [endsInString]
  | [c], h => by
    rw [areFaultless, Bool.and_eq_true] at h
    rw [endsInString, cutOff_faultless h.1]
  | c :: d :: rest, h => by
    rw [areFaultless, Bool.and_eq_true] at h
    rw [endsInString, endsInString_faultless h.2]

end

/-- What is put before a component behind an edge, if it is behind any. -/
def between? (previous : Option Edge) (e : Edge) : Text :=
  match previous with
  | some p => p.between e
  | none => []

theorem printAfter_cons (previous : Option Edge) (c : Component) (cs : List Component) :
    printAfter previous (c :: cs)
      = between? previous c.edge ++ print c ++ printAfter (some c.edge) cs := by
  cases previous with
  | none => exact printAfter_none c cs
  | some e => exact printAfter_some e c cs

/-- Does the newline that a backslash needs come behind it? -/
def NewlineComes (previous : Option Edge) (list : List Lexeme) : Prop :=
  previous = some (.literal ['\\']) → list.head?.any (·.edge.startsNewline) = true

theorem newlineComes_none (list : List Lexeme) : NewlineComes none list :=
  nofun

theorem newlineComes_edge {c : Component} (hc : isFaultless c = true) {rest : List Lexeme}
    (h : Lexeme.newlinesFollow (sequence [c] ++ rest) = true) : NewlineComes (some c.edge) rest := by
  intro hedge
  obtain ⟨p, rfl⟩ : ∃ p, c = leaf p (.literal ['\\']) := by
    cases c with
    | leaf p l =>
      cases l with
      | literal t =>
        cases hedge
        exact ⟨p, rfl⟩
      | _ => cases hedge
    | function p name arguments => cases hedge
    | block p bracket content => cases bracket <;> cases hedge
  rw [sequence_leaf p rfl, List.singleton_append, Lexeme.newlinesFollow, Bool.and_eq_true,
    Bool.or_eq_true] at h
  exact h.1.resolve_left (by simp [Lexeme.literal])

/-- Only comments are put between components, if all newlines are there. -/
theorem textOf_written_cons {previous : Option Edge} {a : Lexeme} {rest : List Lexeme}
    (h : NewlineComes previous (a :: rest)) : Stretch.textOf (Stretch.written previous (a :: rest))
      = between? previous a.edge ++ (a.print ++ Stretch.textOf (Stretch.written a.edge? rest)) := by
  rw [Stretch.written, Stretch.textOf_append, Stretch.textOf_cons]
  refine congrArg (· ++ _) ?_
  cases previous with
  | none => rfl
  | some e =>
    rw [between?, Edge.between, Option.any_some]
    split
    · rfl
    · rw [if_neg]
      · rfl
      · intro hbackslash
        rw [Bool.and_eq_true, Bool.not_eq_true'] at hbackslash
        have he : e = .literal ['\\'] := by
          have hmark := hbackslash.1
          unfold Edge.isMark at hmark
          split at hmark
          · exact congrArg Edge.literal (beq_iff_eq.1 hmark)
          · cases hmark
        have hnewline : a.edge.startsNewline = true := h (congrArg some he)
        rw [hnewline] at hbackslash
        cases hbackslash.2

/-- What follows a bracket starts anew. -/
theorem written_bracket {e : Edge} (he : ∀ b, e.clash b = false) (list : List Lexeme) :
    Stretch.written (some e) list = Stretch.written none list := by
  cases list with
  | nil => rfl
  | cons a rest =>
    rw [Stretch.written, Stretch.written, Option.any_some, he, Option.any_none]

theorem written_other {list : List Lexeme} (h : list.head?.all (·.edge == .other) = true)
    (previous : Option Edge) : Stretch.written previous list = Stretch.written none list := by
  have hclash : ∀ e : Edge, e.clash .other = false := by
    simp [Edge.clash, Edge.startsIdentLike, Edge.startsNumber, Edge.isMark, Edge.isLiteral]
  cases list with
  | nil => rfl
  | cons a rest =>
    have ha : a.edge = .other := by simpa using h
    cases previous with
    | none => rfl
    | some e => rw [Stretch.written, Stretch.written, Option.any_some, ha, hclash, Option.any_none]

theorem edge_leaf (p : Position) (l : Leaf) : Lexeme.edge (.leaf l) = edge (leaf p l) := by
  cases l <;> rfl

mutual

theorem textOf_written_component : ∀ {c : Component}, isFaultless c = true →
    ∀ {previous : Option Edge} {rest : List Lexeme},
      Lexeme.newlinesFollow (sequence [c] ++ rest) = true →
      NewlineComes previous (sequence [c] ++ rest) →
        Stretch.textOf (Stretch.written previous (sequence [c] ++ rest))
          = between? previous c.edge ++ print c
            ++ Stretch.textOf (Stretch.written (some c.edge) rest)
  | leaf p l, h, previous, rest, hnewlines, hprevious => by
    rw [isFaultless, Option.isNone_iff_eq_none] at h
    rw [sequence_leaf p h, List.singleton_append] at hprevious ⊢
    rw [textOf_written_cons hprevious, Lexeme.edge?, edge_leaf p, print, List.append_assoc]
    rfl
  | function p name arguments, h, previous, rest, hnewlines, hprevious => by
    rw [isFaultless] at h
    rw [sequence_function] at hnewlines hprevious ⊢
    rw [textOf_written_cons hprevious, show Lexeme.edge? _ = none from rfl,
      textOf_written_sequence h (Bool.and_eq_true_iff.1 hnewlines).2 (newlineComes_none _) rfl,
      textOf_written_cons (newlineComes_none _), edge, written_bracket (fun _ => rfl), print,
      if_neg (by simp [endsInString_faultless h])]
    simp [Lexeme.print, Lexeme.edge?, Lexeme.edge, between?, Bracket.closing]
  | block p bracket content, h, previous, rest, hnewlines, hprevious => by
    rw [isFaultless] at h
    rw [sequence_block] at hnewlines hprevious ⊢
    -- nothing has to be put between an opening bracket and what it opens
    have hedge : Lexeme.edge (.opening bracket) = edge (block p bracket content)
        ∧ ∀ b, (edge (block p bracket content)).clash b = false := by
      cases bracket <;> exact ⟨rfl, fun _ => rfl⟩
    rw [textOf_written_cons hprevious, show Lexeme.edge? _ = none from rfl,
      textOf_written_sequence h (Bool.and_eq_true_iff.1 hnewlines).2 (newlineComes_none _) rfl,
      textOf_written_cons (newlineComes_none _), hedge.1, written_bracket hedge.2, print]
    simp [Lexeme.print, Lexeme.edge?, between?]

/-- Components are printed as their lexemes are. -/
theorem textOf_written_sequence : ∀ {components : List Component}, areFaultless components = true →
    ∀ {previous : Option Edge} {rest : List Lexeme},
      Lexeme.newlinesFollow (sequence components ++ rest) = true →
      NewlineComes previous (sequence components ++ rest) →
      rest.head?.all (·.edge == .other) = true →
        Stretch.textOf (Stretch.written previous (sequence components ++ rest))
          = printAfter previous components ++ Stretch.textOf (Stretch.written none rest)
  | [], _, previous, rest, _, _, hrest => by
    rw [sequence_nil, List.nil_append, printAfter, List.nil_append, written_other hrest]
  | c :: cs, h, previous, rest, hnewlines, hprevious, hrest => by
    rw [areFaultless, Bool.and_eq_true] at h
    rw [sequence_cons, List.append_assoc] at hnewlines hprevious ⊢
    have hnext := newlineComes_edge h.1 hnewlines
    rw [textOf_written_component h.1 hnewlines hprevious,
      textOf_written_sequence h.2 (Lexeme.newlinesFollow_append hnewlines) hnext hrest,
      printAfter_cons, List.append_assoc, List.append_assoc, List.append_assoc]

end

/-! ## Joining the whitespace of components -/

/-- Puts a component before others, and joins it with the first one if both are
whitespace. -/
def attach (c : Component) : List Component → List Component
  | [] => [c]
  | d :: rest =>
    if c.isWhitespace && d.isWhitespace then
      leaf c.position (.whitespace (print c ++ print d)) :: rest
    else c :: d :: rest

mutual

/-- The component with neighbouring runs of whitespace joined. -/
def gather : Component → Component
  | leaf p l => leaf p l
  | function p name arguments => function p name (gatherAll arguments)
  | block p bracket content => block p bracket (gatherAll content)

/-- The components with neighbouring runs of whitespace joined. -/
def gatherAll : List Component → List Component
  | [] => []
  | c :: cs => attach (gather c) (gatherAll cs)

end

theorem areFaultless_attach {c : Component} {components : List Component} (hc : isFaultless c = true)
    (h : areFaultless components = true) : areFaultless (attach c components) = true := by
  cases components with
  | nil => simp [attach, areFaultless, hc]
  | cons d rest =>
    rw [areFaultless, Bool.and_eq_true] at h
    rw [attach]
    split
    · rw [areFaultless, h.2, isFaultless]
      rfl
    · simp [areFaultless, hc, h]

mutual

theorem isFaultless_gather : ∀ {c : Component}, isFaultless c = true → isFaultless (gather c) = true
  | leaf p l, h => by rwa [gather]
  | function p name arguments, h => by
    rw [isFaultless] at h
    rw [gather, isFaultless, areFaultless_gatherAll h]
  | block p bracket content, h => by
    rw [isFaultless] at h
    rw [gather, isFaultless, areFaultless_gatherAll h]

theorem areFaultless_gatherAll : ∀ {components : List Component}, areFaultless components = true →
    areFaultless (gatherAll components) = true
  | [], _ => by rw [gatherAll, areFaultless]
  | c :: cs, h => by
    rw [areFaultless, Bool.and_eq_true] at h
    rw [gatherAll]
    exact areFaultless_attach (isFaultless_gather h.1) (areFaultless_gatherAll h.2)

end

theorem isWhitespace_leaf (p : Position) (l : Leaf) :
    isWhitespace (leaf p l) = Lexeme.isGap (.leaf l) := by
  cases l <;> rfl

/-- A component that is no whitespace stays by itself. -/
theorem attach_of_not_whitespace {c : Component} (hc : c.isWhitespace = false)
    (components : List Component) : attach c components = c :: components := by
  cases components with
  | nil => rfl
  | cons d rest => rw [attach, hc, Bool.false_and, if_neg Bool.false_ne_true]

/-- Components are joined as their lexemes are. -/
theorem sequence_attach_leaf (p : Position) {l : Leaf} (hl : l.fault? = none)
    {components : List Component} (h : areFaultless components = true) :
    sequence (attach (leaf p l) components) = Lexeme.attach (.leaf l) (sequence components) := by
  cases components with
  | nil => exact sequence_leaf p hl
  | cons d rest =>
    rw [areFaultless, Bool.and_eq_true] at h
    rw [attach, isWhitespace_leaf]
    cases d with
    | leaf q m =>
      have hm : m.fault? = none := by simpa [isFaultless] using h.1
      rw [sequence_cons (leaf q m) rest, sequence_leaf q hm, List.singleton_append, Lexeme.attach,
        isWhitespace_leaf]
      split
      · rw [sequence_cons, sequence_leaf _ rfl, print, print]
        rfl
      · rw [sequence_cons, sequence_leaf p hl, sequence_cons, sequence_leaf q hm]
        rfl
    | function q name arguments =>
      rw [sequence_cons (function q name arguments), sequence_function, Lexeme.attach]
      simp only [isWhitespace, Lexeme.isGap, Bool.and_false, Bool.false_eq_true, if_false]
      rw [sequence_cons, sequence_leaf p hl, sequence_cons, sequence_function]
      rfl
    | block q bracket content =>
      rw [sequence_cons (block q bracket content), sequence_block, Lexeme.attach]
      simp only [isWhitespace, Lexeme.isGap, Bool.and_false, Bool.false_eq_true, if_false]
      rw [sequence_cons, sequence_leaf p hl, sequence_cons, sequence_block]
      rfl

theorem sequence_gatherAll : ∀ {components : List Component}, areFaultless components = true →
    sequence (gatherAll components) = Lexeme.gathered (sequence components)
  | [], _ => rfl
  | leaf p l :: cs, h => by
    rw [areFaultless, Bool.and_eq_true, isFaultless, Option.isNone_iff_eq_none] at h
    rw [gatherAll, gather, sequence_attach_leaf p h.1 (areFaultless_gatherAll h.2),
      sequence_gatherAll h.2, sequence_cons, sequence_leaf p h.1]
    rfl
  | function p name arguments :: cs, h => by
    rw [areFaultless, Bool.and_eq_true, isFaultless] at h
    rw [gatherAll, gather, attach_of_not_whitespace rfl, sequence_cons, sequence_function,
      sequence_gatherAll h.1, sequence_gatherAll h.2, sequence_cons, sequence_function,
      Lexeme.gathered_cons, Lexeme.attach_of_not_gap rfl, Lexeme.gathered_append rfl]
  | block p bracket content :: cs, h => by
    rw [areFaultless, Bool.and_eq_true, isFaultless] at h
    rw [gatherAll, gather, attach_of_not_whitespace rfl, sequence_cons, sequence_block,
      sequence_gatherAll h.1, sequence_gatherAll h.2, sequence_cons, sequence_block,
      Lexeme.gathered_cons, Lexeme.attach_of_not_gap rfl, Lexeme.gathered_append rfl]

/-! ## Reading back -/

/-- The components without their positions. -/
def unplacedOf (components : List Component) : List Component :=
  onlyOf (fun _ => true) components

theorem isClean_sequence : ∀ {components : List Component}, areFaultless components = true →
    ∀ a ∈ sequence components, a.isClean = true
  | [], _ => fun _ ha => nomatch ha
  | leaf p l :: cs, h => by
    rw [areFaultless, Bool.and_eq_true, isFaultless, Option.isNone_iff_eq_none] at h
    rw [sequence_cons, sequence_leaf p h.1, List.singleton_append, List.forall_mem_cons,
      Lexeme.isClean, h.1]
    exact ⟨rfl, isClean_sequence h.2⟩
  | function p name arguments :: cs, h => by
    rw [areFaultless, Bool.and_eq_true, isFaultless] at h
    rw [sequence_cons, sequence_function, List.forall_mem_cons, List.forall_mem_append,
      List.forall_mem_cons]
    exact ⟨rfl, isClean_sequence h.1, rfl, isClean_sequence h.2⟩
  | block p bracket content :: cs, h => by
    rw [areFaultless, Bool.and_eq_true, isFaultless] at h
    rw [sequence_cons, sequence_block, List.forall_mem_cons, List.forall_mem_append,
      List.forall_mem_cons]
    exact ⟨rfl, isClean_sequence h.1, rfl, isClean_sequence h.2⟩

theorem onlyLexeme_clean {a : Lexeme} (h : a.isClean = true) : onlyLexeme (fun _ => true) a = [a] := by
  cases a with
  | comment text => cases h
  | leaf l => rfl
  | _ => rfl

theorem flatMap_onlyLexeme {list : List Lexeme} (h : ∀ a ∈ list, a.isClean = true) :
    list.flatMap (onlyLexeme fun _ => true) = list := by
  induction list with
  | nil => rfl
  | cons a list ih =>
    obtain ⟨ha, hlist⟩ := List.forall_mem_cons.1 h
    rw [List.flatMap_cons, onlyLexeme_clean ha, ih hlist, List.singleton_append]

/-- Printing lexemes adds comments only. -/
theorem flatMap_written {list : List Lexeme} (h : ∀ a ∈ list, a.isClean = true) : ∀ previous,
    (Stretch.written previous list).flatMap (fun a => onlyLexeme (fun _ => true) a.lexeme) = list := by
  induction list with
  | nil => exact fun _ => rfl
  | cons a list ih =>
    intro previous
    obtain ⟨ha, hlist⟩ := List.forall_mem_cons.1 h
    rw [Stretch.written, List.flatMap_append, List.flatMap_cons, onlyLexeme_clean ha, ih hlist]
    split <;> rfl

/-- Is every leaf printed faithfully, and is a comment put wherever one is needed? -/
def areLegible (components : List Component) : Bool :=
  (sequence components).all Lexeme.isFaithful && Lexeme.areApart (sequence components)

/-- The text of components is that of their lexemes with the whitespace joined. -/
theorem printAll_eq_textOf {components : List Component} (hfault : areFaultless components = true)
    (hwell : ∀ a ∈ sequence components, a.WellFormed)
    (hapart : Lexeme.areApart (sequence (gatherAll components)) = true) :
    printAll components = Stretch.textOf (Stretch.written none (sequence (gatherAll components))) := by
  have hgather := sequence_gatherAll hfault
  have hnewlines := Lexeme.newlinesFollow_of_areApart hapart
  rw [hgather] at hnewlines
  have hfollow := Lexeme.newlinesFollow_of_gathered hwell hnewlines
  rw [← List.append_nil (sequence components)] at hfollow
  have hprint := textOf_written_sequence hfault hfollow (newlineComes_none _) rfl
  rw [List.append_nil] at hprint
  rw [hgather, Lexeme.textOf_written_gathered, hprint]
  exact (List.append_nil _).symm

section ReadBack

variable {components : List Component} (hfault : areFaultless components = true)
  (hwell : ∀ a ∈ sequence components, a.WellFormed)
  (hquoted : Lexeme.quotesUrls (sequence components) = true)

include hfault hwell hquoted

theorem areOrderly_gatherAll : Lexeme.AreOrderly (sequence (gatherAll components)) := by
  rw [sequence_gatherAll hfault]
  exact .gathered hwell (isClean_sequence hfault) hquoted

variable (hlegible : areLegible (gatherAll components) = true)

include hlegible

/-- **Printed components are read back**, with their runs of whitespace joined. -/
theorem unplacedOf_printAll :
    unplacedOf (ofText (printAll components)) = unplacedOf (gatherAll components) := by
  have horderly := areOrderly_gatherAll hfault hwell hquoted
  rw [areLegible, Bool.and_eq_true, List.all_eq_true] at hlegible
  obtain ⟨hfaithful, hapart⟩ := hlegible
  rw [printAll_eq_textOf hfault hwell hapart, unplacedOf, unplacedOf, onlyOf_ofText (fun _ => rfl),
    Stretch.ofText_written horderly hfaithful hapart, flatMap_written horderly.clean,
    onlyOf_faultless (fun _ => rfl) (areFaultless_gatherAll hfault), onlyLexemes]
  have hmap := flatMap_onlyLexeme horderly.clean
  rw [sequence, List.flatMap_map] at hmap
  exact congrArg ofLexemes hmap.symm

/-- The text of components is a normal one. -/
theorem isNormal_printAll : ∀ c ∈ printAll components, isNormal c = true := by
  have horderly := areOrderly_gatherAll hfault hwell hquoted
  rw [areLegible, Bool.and_eq_true] at hlegible
  rw [printAll_eq_textOf hfault hwell hlegible.2]
  exact Lexeme.isNormal_written horderly.well horderly.clean none

end ReadBack

end Component

end NestedSheet
