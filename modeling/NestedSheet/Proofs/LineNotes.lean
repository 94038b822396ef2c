import Mathlib.Data.List.Infix
import NestedSheet.Proofs.CommentNotes
import NestedSheet.Proofs.Outcomes
import NestedSheet.Proofs.Passes
import NestedSheet.Proofs.Paths
import NestedSheet.Proofs.Styles

/-!
# Line notes only add comments

A text reveals what is left of it without comments and blanks (`Reveals`).  Texts can be put
behind each other and trimmed without changing what they reveal, if no comment starts where
they meet: a slash before a star.  Between the parts of a sheet stand braces, colons, commas,
semicolons and blanks, so none starts there.  A line note reveals nothing, since the path that
it shows brings no end mark into the comment (`afterCommentEnd?_shown`).  So a sheet with line
notes reveals its plain text, in every style and at any depth (`reveals_part`).

Main result: `render_lineNotes`, the texts of a sheet with and without line notes.
-/

namespace NestedSheet

/-! ## The path in a note -/

namespace Path

/-- Of the parts of a path only the last one ends with a star. -/
def StarLast (parts : List Text) : Prop :=
  parts.Pairwise fun part _ => part.getLast? ≠ some '*'

/-- No comment ends across the border of two texts, unless a star meets a slash there. -/
theorem afterCommentEnd?_append_eq_none {t u : Text} (ht : afterCommentEnd? t = none)
    (hu : afterCommentEnd? u = none) (hborder : t.getLast? = some '*' → u.head? ≠ some '/') :
    afterCommentEnd? (t ++ u) = none := by
  induction t with
  | nil => exact hu
  | cons c cs ih =>
    obtain ⟨hfirst, hcs⟩ := afterCommentEnd?_cons_eq_none.1 ht
    refine afterCommentEnd?_cons_eq_none.2 ⟨?_, ih hcs fun hlast => hborder ?_⟩
    · rintro ⟨rfl, hhead⟩
      cases cs with
      | nil => exact hborder rfl hhead
      | cons d ds => exact hfirst ⟨rfl, hhead⟩
    · rw [List.getLast?_cons, hlast]
      rfl

theorem afterCommentEnd?_of_slash_not_mem {t : Text} (h : '/' ∉ t) : afterCommentEnd? t = none := by
  rw [afterCommentEnd?_eq_none]
  exact fun hinside => h (hinside.subset (by simp))

/-- Parts of which only the last one ends with a star do not end a comment. -/
theorem afterCommentEnd?_intercalate {parts : List Text} (hslash : ∀ part ∈ parts, '/' ∉ part)
    (hstar : StarLast parts) : afterCommentEnd? (['/'].intercalate parts) = none := by
  induction parts with
  | nil => rfl
  | cons part rest ih =>
    obtain ⟨hpart, hrest⟩ := List.forall_mem_cons.1 hslash
    obtain ⟨hlast, hpairs⟩ := List.pairwise_cons.1 hstar
    have hpart := afterCommentEnd?_of_slash_not_mem hpart
    cases rest with
    | nil => simpa [List.intercalate] using hpart
    | cons next more =>
      rw [List.intercalate_cons_cons, List.append_assoc]
      refine afterCommentEnd?_append_eq_none hpart ?_ fun h => absurd h (hlast next (by simp))
      rw [List.singleton_append, afterCommentEnd?_cons (by simp)]
      exact ih hrest hpairs

/-- In a path in which no comment ends only the last part ends with a star. -/
theorem starLast_cut {t : Text} (h : afterCommentEnd? t = none) : StarLast (Text.cut '/' t) := by
  induction t with
  | nil => exact List.pairwise_singleton _ _
  | cons c cs ih =>
    obtain ⟨hfirst, hrest⟩ := afterCommentEnd?_cons_eq_none.1 h
    have hcs := ih hrest
    rw [Text.cut]
    split
    · refine List.pairwise_cons.2 ⟨fun next _ hlast => ?_, hcs⟩
      cases hlast
    · obtain ⟨piece, pieces, hcut⟩ := List.exists_cons_of_ne_nil (Text.cut_ne_nil '/' cs)
      rw [hcut] at hcs ⊢
      obtain ⟨hpiece, hpieces⟩ := List.pairwise_cons.1 hcs
      refine List.pairwise_cons.2 ⟨fun next hnext => ?_, hpieces⟩
      cases piece with
      | cons d ds =>
        rw [List.getLast?_cons_cons]
        exact hpiece next hnext
      | nil =>
        -- the separator comes right behind the character
        intro hc
        obtain rfl : c = '*' := Option.some.inj hc
        have hjoin := Text.intercalate_cut '/' cs
        obtain ⟨second, more, rfl⟩ := List.exists_cons_of_ne_nil (List.ne_nil_of_mem hnext)
        rw [hcut, List.intercalate_cons_cons] at hjoin
        exact hfirst ⟨rfl, hjoin ▸ rfl⟩

/-- Of a stack of parts, only the latest one may end with a star. -/
theorem pairwise_push {absolute : Bool} {stack : List Text} {part : Text}
    (h : ∀ p ∈ stack, p.getLast? ≠ some '*') :
    (push absolute stack part).Pairwise fun _ p => p.getLast? ≠ some '*' := by
  have hall : stack.Pairwise fun _ p => p.getLast? ≠ some '*' :=
    List.pairwise_of_forall_mem_list fun _ _ p hp => h p hp
  have hcons : (part :: stack).Pairwise fun _ p => p.getLast? ≠ some '*' :=
    List.pairwise_cons.2 ⟨h, hall⟩
  unfold push
  split
  · exact hall
  · split
    · next hup =>
      split
      · split
        · exact List.Pairwise.nil
        · exact List.pairwise_singleton _ _
      · split
        · rw [← hup]
          exact hcons
        · exact hall.of_cons
    · exact hcons

theorem starLast_normalParts {absolute : Bool} {parts : List Text} (h : StarLast parts) :
    StarLast (normalParts absolute parts) := by
  -- while parts follow, no part on the stack ends with a star
  have hfold : ∀ stack : List Text, (∀ p ∈ stack, p.getLast? ≠ some '*') →
      (parts.foldl (push absolute) stack).Pairwise fun _ p => p.getLast? ≠ some '*' := by
    induction parts with
    | nil => exact fun stack hstack => List.pairwise_of_forall_mem_list fun _ _ p hp => hstack p hp
    | cons part rest ih =>
      intro stack hstack
      obtain ⟨hpart, hrest⟩ := List.pairwise_cons.1 h
      cases rest with
      | nil => exact pairwise_push hstack
      | cons next more =>
        refine ih hrest _ fun p hp => ?_
        rcases List.mem_cons.1 (push_subset absolute stack part hp) with rfl | hp
        · exact hpart next List.mem_cons_self
        · exact hstack p hp
  exact List.pairwise_reverse.2 (hfold [] (List.forall_mem_nil _))

/-- The normal form of a path ends a comment only if the path does. -/
theorem afterCommentEnd?_normalize {path : Text} (h : afterCommentEnd? path = none) :
    afterCommentEnd? (normalize path) = none := by
  have hparts := @afterCommentEnd?_intercalate (normalParts (isAbsolute path) (Text.cut '/' path))
    (slash_not_mem_normalParts fun part hpart => Text.sep_not_mem_cut hpart)
    (starLast_normalParts (starLast_cut h))
  have hroot : '*' ∉ rootSlashes path := by
    unfold rootSlashes
    split <;> decide
  unfold normalize
  simp only
  split
  · rfl
  · rw [afterCommentEnd?_skip hroot, hparts]

theorem afterCommentEnd?_absolute {directory path : Text} (hdirectory : '*' ∉ directory)
    (h : afterCommentEnd? path = none) : afterCommentEnd? (absolute directory path) = none := by
  refine afterCommentEnd?_normalize ?_
  unfold below
  split
  · exact h
  · split
    · rw [afterCommentEnd?_skip hdirectory, h]
    · rw [afterCommentEnd?_skip hdirectory, afterCommentEnd?_cons (by simp), h]

/-- The way from a base to a path ends a comment only if the path does. -/
theorem afterCommentEnd?_relative {directory path : Text} (base : Text)
    (hdirectory : '*' ∉ directory) (h : afterCommentEnd? path = none) :
    afterCommentEnd? (relative directory path base) = none := by
  obtain ⟨common, -, hpath⟩ :=
    dropCommon_append (parts (absolute directory base)) (parts (absolute directory path))
  have hslash : ∀ part ∈ parts (absolute directory path), '/' ∉ part :=
    fun _ hpart => slash_not_mem_of_mem_parts hpart
  have hstar : StarLast (parts (absolute directory path)) :=
    (starLast_cut (afterCommentEnd?_absolute hdirectory h)).filter _
  rw [hpath] at hslash hstar
  unfold relative
  simp only
  generalize (dropCommon (parts (absolute directory base)) (parts (absolute directory path))) = rest
    at hslash hstar
  -- the way goes up, where no star is, and then down by names of the path
  have hups : ∀ part ∈ rest.1.map (fun _ => up), part = up := by
    intro part hpart
    obtain ⟨_, -, rfl⟩ := List.mem_map.1 hpart
    rfl
  split
  · rfl
  · refine afterCommentEnd?_intercalate ?_ (List.pairwise_append.2 ⟨?_, ?_, ?_⟩)
    · intro part hpart
      rcases List.mem_append.1 hpart with hpart | hpart
      · rw [hups part hpart]
        decide
      · exact hslash part (List.mem_append_right _ hpart)
    · refine List.pairwise_of_forall_mem_list fun part hpart _ _ => ?_
      rw [hups part hpart]
      decide
    · exact (List.pairwise_append.1 hstar).2.1
    · intro part hpart _ _
      rw [hups part hpart]
      decide

/-- **A file name as it is shown ends a comment only if the name does**, where the directory
that relative paths start from has no star in it. -/
theorem afterCommentEnd?_shown {directory path : Text} (base : Option Text)
    (hdirectory : '*' ∉ directory) (h : afterCommentEnd? path = none) :
    afterCommentEnd? (shown directory base path) = none := by
  unfold shown
  split
  · exact h
  · split
    · exact h
    · exact afterCommentEnd?_relative _ hdirectory h

end Path

/-! ## What a text reveals -/

/-- The text without its comments.  Quotes make no difference, and a comment that is not closed
stays. -/
def withoutComments : Text → Text
  | [] => []
  | c :: cs =>
    match _hrest : afterComment? (c :: cs) with
    | some rest => withoutComments rest
    | none => c :: withoutComments cs
termination_by t => t.length
decreasing_by
  · have := afterComment?_length _hrest
    simp only [List.length_cons]
    omega
  · simp

/-- The text without its blanks. -/
def withoutBlanks (t : Text) : Text :=
  t.filter fun c => !Text.isBlank c

/-- No comment starts in the text. -/
def OpensNoComment (t : Text) : Prop :=
  ¬ ['/', '*'] <:+: t

instance (t : Text) : Decidable (OpensNoComment t) :=
  inferInstanceAs (Decidable (¬ _))

/-- Without blanks and comments, of which each ends with a space, the first text is the
second one. -/
inductive Reveals : Text → Text → Prop
  | nil : Reveals [] []
  | blank {c : Char} {t u : Text} : Text.isBlank c = true → Reveals t u → Reveals (c :: t) u
  | ink {c : Char} {t u : Text} : Text.isBlank c = false → (c = '/' → t.head? ≠ some '*') →
    Reveals t u → Reveals (c :: t) (c :: u)
  | comment {inside t u : Text} : afterCommentEnd? inside = none → Reveals t u →
    Reveals ('/' :: '*' :: (inside ++ ' ' :: '*' :: '/' :: t)) u

theorem afterComment?_eq_none {c : Char} {t : Text} (h : c = '/' → t.head? ≠ some '*') :
    afterComment? (c :: t) = none := by
  unfold afterComment?
  split
  · next heq =>
    obtain ⟨rfl, rfl⟩ := List.cons.inj heq
    exact absurd rfl (h rfl)
  · rfl

theorem Text.dropEndWhile_cons (p : Char → Bool) (c : Char) (t : Text) :
    Text.dropEndWhile p (c :: t) = c :: Text.dropEndWhile p t
      ∨ Text.dropEndWhile p (c :: t) = [] ∧ Text.dropEndWhile p t = [] := by
  unfold Text.dropEndWhile
  rw [List.reverse_cons, List.dropWhile_append]
  split
  · next hempty =>
    rw [List.isEmpty_iff.1 hempty, List.dropWhile_cons]
    split
    · exact Or.inr ⟨rfl, rfl⟩
    · exact Or.inl rfl
  · rw [List.reverse_append]
    exact Or.inl rfl

theorem withoutComments_cons {c : Char} {t : Text} (h : afterComment? (c :: t) = none) :
    withoutComments (c :: t) = c :: withoutComments t := by
  rw [withoutComments]
  split
  · next hrest =>
    rw [h] at hrest
    cases hrest
  · rfl

theorem withoutComments_comment {c : Char} {t rest : Text} (h : afterComment? (c :: t) = some rest) :
    withoutComments (c :: t) = withoutComments rest := by
  rw [withoutComments]
  split
  · next hrest =>
    rw [h] at hrest
    rw [Option.some.inj hrest]
  · next hnone =>
    rw [h] at hnone
    cases hnone

/-- A blank is no slash. -/
theorem ne_slash_of_isBlank {c : Char} (h : Text.isBlank c = true) : c ≠ '/' := by
  rintro rfl
  cases h

/-- **What a text reveals is what is left of it.** -/
theorem Reveals.eq {t u : Text} (h : Reveals t u) : withoutBlanks (withoutComments t) = u := by
  induction h with
  | nil =>
    rw [withoutComments]
    rfl
  | blank hc _ ih =>
    rw [withoutComments_cons (afterComment?_eq_none fun heq => absurd heq (ne_slash_of_isBlank hc)),
      withoutBlanks, List.filter_cons_of_neg (by simp [hc]), ← withoutBlanks, ih]
  | ink hc hstar _ ih =>
    rw [withoutComments_cons (afterComment?_eq_none hstar), withoutBlanks,
      List.filter_cons_of_pos (by simp [hc]), ← withoutBlanks, ih]
  | @comment inside t u hinside _ ih =>
    have hend : afterComment? ('/' :: '*' :: (inside ++ ' ' :: '*' :: '/' :: t)) = some t :=
      afterCommentEnd?_space hinside _
    rw [withoutComments_comment hend, ih]

namespace Reveals

/-- A text in which no comment starts reveals what it has besides blanks. -/
theorem of_opensNoComment {t : Text} (h : OpensNoComment t) : Reveals t (withoutBlanks t) := by
  induction t with
  | nil => exact nil
  | cons c cs ih =>
    have hcs := ih fun hinside => h (List.infix_cons hinside)
    cases hc : Text.isBlank c with
    | true =>
      rw [withoutBlanks, List.filter_cons_of_neg (by simp [hc])]
      exact blank hc hcs
    | false =>
      rw [withoutBlanks, List.filter_cons_of_pos (by simp [hc])]
      refine ink hc ?_ hcs
      rintro rfl hhead
      obtain ⟨ds, rfl⟩ := List.head?_eq_some_iff.1 hhead
      exact h (List.prefix_append ['/', '*'] ds).isInfix

/-- Texts behind each other reveal what each of them does, unless a slash meets a star. -/
theorem append {t t' u u' : Text} (h : Reveals t u) (h' : Reveals t' u')
    (hborder : t.getLast? = some '/' → t'.head? ≠ some '*') : Reveals (t ++ t') (u ++ u') := by
  have hmore : ∀ {c : Char} {cs : Text}, ((c :: cs).getLast? = some '/' → t'.head? ≠ some '*') →
      cs.getLast? = some '/' → t'.head? ≠ some '*' := by
    intro c cs hborder hlast
    refine hborder ?_
    rw [List.getLast?_cons, hlast]
    rfl
  induction h with
  | nil => exact h'
  | blank hc _ ih => exact blank hc (ih (hmore hborder))
  | @ink c t u hc hstar _ ih =>
    refine ink hc ?_ (ih (hmore hborder))
    rintro rfl
    cases t with
    | nil => exact hborder rfl
    | cons d ds => exact hstar rfl
  | @comment inside t u hinside _ ih =>
    rw [List.cons_append, List.cons_append, List.append_assoc]
    refine comment hinside (ih fun hlast => hborder ?_)
    have hend : ('/' :: '*' :: (inside ++ ' ' :: '*' :: '/' :: t))
        = ('/' :: '*' :: (inside ++ [' ', '*', '/'])) ++ t := by simp
    rw [hend, List.getLast?_append, hlast]
    rfl

theorem of_blanks {t : Text} (h : ∀ c ∈ t, Text.isBlank c = true) : Reveals t [] := by
  induction t with
  | nil => exact nil
  | cons c cs ih =>
    obtain ⟨hc, hcs⟩ := List.forall_mem_cons.1 h
    exact blank hc (ih hcs)

theorem of_spacing {t : Text} (h : Spacing t) : Reveals t [] :=
  of_blanks h.isBlank

theorem spacing_append {gap t u : Text} (hgap : Spacing gap) (h : Reveals t u) :
    Reveals (gap ++ t) u := by
  refine (of_spacing hgap).append h fun hlast => ?_
  rcases hgap _ (List.mem_of_getLast? hlast) with hc | hc <;> cases hc

theorem append_spacing {gap t u : Text} (h : Reveals t u) (hgap : Spacing gap) :
    Reveals (t ++ gap) u := by
  rw [← List.append_nil u]
  refine h.append (of_spacing hgap) fun _ hhead => ?_
  rcases hgap _ (List.mem_of_head? hhead) with hc | hc <;> cases hc

/-- A character that neither starts a comment nor is the second one of its mark. -/
theorem append_mark {c : Char} {t t' u u' : Text} (hblank : Text.isBlank c = false)
    (hc : c ≠ '/' ∧ c ≠ '*') (h : Reveals t u) (h' : Reveals t' u') :
    Reveals (t ++ c :: t') (u ++ c :: u') := by
  refine h.append (ink hblank (fun heq => absurd heq hc.1) h') fun _ hhead => ?_
  exact hc.2 (Option.some.inj hhead)

/-- Trimming the end of a text does not change what it reveals: a comment ends with a slash, so
the blanks at the end are not in a comment. -/
theorem dropEndWhile {p : Char → Bool} (hp : ∀ c, p c = true → Text.isBlank c = true) {t u : Text}
    (h : Reveals t u) : Reveals (Text.dropEndWhile p t) u := by
  have hstop : ∀ {c : Char} (before rest : Text), Text.isBlank c = false →
      Text.dropEndWhile p (before ++ c :: rest) = before ++ c :: Text.dropEndWhile p rest := by
    intro c before rest hc
    refine Text.dropEndWhile_append_cons (Bool.eq_false_iff.2 fun hpc => ?_) before rest
    rw [hp c hpc] at hc
    cases hc
  induction h with
  | nil => exact nil
  | @blank c t u hc _ ih =>
    rcases Text.dropEndWhile_cons p c t with hcons | ⟨hnil, htail⟩
    · rw [hcons]
      exact blank hc ih
    · rw [hnil, ← htail]
      exact ih
  | @ink c t u hc hstar _ ih =>
    rw [← List.nil_append (c :: t), hstop [] t hc]
    refine ink hc (fun heq hhead => hstar heq ?_) ih
    rw [← Text.dropEndWhile_append p t, List.head?_append, hhead]
    rfl
  | @comment inside t u hinside _ ih =>
    have hend := hstop ('/' :: '*' :: (inside ++ [' ', '*'])) t (show Text.isBlank '/' = false from rfl)
    simp only [List.cons_append, List.append_assoc, List.nil_append] at hend
    rw [hend]
    exact comment hinside ih

theorem stripEnd {t u : Text} (h : Reveals t u) : Reveals (Text.stripEnd t) u :=
  h.dropEndWhile fun _ hc => hc

theorem strip {t u : Text} (h : Reveals t u) : Reveals (Text.strip t) u := by
  refine Reveals.stripEnd ?_
  rw [Text.stripStart]
  induction h with
  | nil => exact nil
  | blank hc _ ih => rwa [List.dropWhile_cons_of_pos hc]
  | ink hc hstar h _ =>
    rw [List.dropWhile_cons_of_neg (by simp [hc])]
    exact ink hc hstar h
  | comment hinside h _ =>
    rw [List.dropWhile_cons_of_neg (by decide)]
    exact comment hinside h

/-- Texts with a separator between them, which has no part in a comment. -/
theorem intercalate {a : Char} {gap v : Text} (hsep : Reveals (a :: gap) v) (ha : a ≠ '*')
    (hlast : (a :: gap).getLast? ≠ some '/') {ts us : List Text} (h : List.Forall₂ Reveals ts us) :
    Reveals ((a :: gap).intercalate ts) (v.intercalate us) := by
  induction h with
  | nil => exact nil
  | @cons t u ts us ht hts ih =>
    cases hts with
    | nil => simpa [List.intercalate] using ht
    | cons hnext hmore =>
      rw [List.intercalate_cons_cons, List.intercalate_cons_cons, List.append_assoc,
        List.append_assoc]
      refine ht.append (hsep.append ih fun heq => absurd heq hlast) fun _ hhead => ?_
      exact ha (Option.some.inj hhead)

/-- A text in braces, with spacing around the braces. -/
theorem braces {before gap inside close final u v : Text} (hbefore : Reveals before u)
    (hinside : Reveals inside v) (hgap : Spacing gap) (hclose : Spacing close)
    (hfinal : Spacing final) :
    Reveals (before ++ gap ++ '{' :: inside ++ close ++ '}' :: final) (u ++ '{' :: v ++ ['}']) := by
  have hopen := append_mark (c := '{') rfl (by decide) (hbefore.append_spacing hgap) hinside
  exact append_mark (c := '}') rfl (by decide) (hopen.append_spacing hclose) (of_spacing hfinal)

end Reveals

/-! ## Trees without comments -/

namespace Node

mutual

/-- No comment starts in a selector, name or value of the tree, and none ends in the name of the
file of a rule. -/
def IsCommentFree : Node → Prop
  | rule r children =>
    (∀ line ∈ r.resolved.getD [], ∀ selector ∈ line, OpensNoComment selector)
      ∧ (∀ name ∈ r.origin.filename, ¬ ['*', '/'] <:+: name) ∧ AreCommentFree children
  | declaration d => OpensNoComment d.name ∧ OpensNoComment d.value
  | directive d => OpensNoComment d.value
  | block d children => OpensNoComment d.value ∧ AreCommentFree children
  | sheet _ children => AreCommentFree children

/-- The same for each of some trees. -/
def AreCommentFree : List Node → Prop
  | [] => True
  | node :: nodes => IsCommentFree node ∧ AreCommentFree nodes

end

end Node

/-! ## What the parts of a sheet reveal -/

theorem withoutBlanks_append (t u : Text) :
    withoutBlanks (t ++ u) = withoutBlanks t ++ withoutBlanks u :=
  List.filter_append ..

theorem withoutBlanks_braces (before inside : Text) :
    withoutBlanks (before ++ '{' :: inside ++ ['}'])
      = withoutBlanks before ++ '{' :: withoutBlanks inside ++ ['}'] := by
  rw [withoutBlanks_append, withoutBlanks_append]
  rfl

theorem intercalate_nil (list : List Text) : ([] : Text).intercalate list = list.flatten := by
  induction list with
  | nil => rfl
  | cons first rest ih =>
    cases rest with
    | nil => rfl
    | cons second rest =>
      rw [List.intercalate_cons_cons, ih, List.append_nil]
      rfl

/-- The part reveals the text at any depth. -/
def Part.Reveals (style : Style) (part : Part) (u : Text) : Prop :=
  ∀ depth, NestedSheet.Reveals (part.layout style depth) u

section Layout

variable {style : Style} (hstyle : style ≠ .compressed) {parts : List Part} {us : List Text}
  (hparts : List.Forall₂ (Part.Reveals style) parts us)

include hstyle in
theorem reveals_declaration {d : Declaration} (hname : OpensNoComment d.name)
    (hvalue : OpensNoComment d.value) (depth : Int) :
    Reveals (d.layout style depth) (withoutBlanks d.plain) := by
  have hmark : ∃ mark : Text, (if d.important then " !important".toList else []) = mark
      ∧ Reveals mark (withoutBlanks mark) ∧ mark.head? ≠ some '*' := by
    split
    · exact ⟨_, rfl, Reveals.of_opensNoComment (by decide), by decide⟩
    · exact ⟨_, rfl, Reveals.nil, nofun⟩
  unfold Declaration.layout Declaration.plain
  simp only [if_neg hstyle]
  obtain ⟨mark, heq, hmark, hhead⟩ := hmark
  rw [heq]
  have hfull := (Reveals.of_opensNoComment hvalue).append hmark fun _ => hhead
  have hend := Reveals.append_mark (c := ';') rfl (by decide) hfull Reveals.nil
  have hcolon := Reveals.append_mark (c := ':') rfl (by decide) (Reveals.of_opensNoComment hname)
    (Reveals.blank (c := ' ') rfl hend)
  have hplain : withoutBlanks (d.name ++ ':' :: d.value ++ mark ++ [';'])
      = withoutBlanks d.name ++ ':' :: (withoutBlanks d.value ++ withoutBlanks mark ++ [';']) := by
    simp only [withoutBlanks_append, List.append_assoc]
    rfl
  rw [hplain, List.append_assoc, List.append_assoc]
  exact hcolon.spacing_append (Spacing.indent depth)

include hstyle in
theorem reveals_selectors {rule : Rule} (h : ∀ line ∈ rule.resolved.getD [], ∀ selector ∈ line,
    OpensNoComment selector) (depth : Int) :
    Reveals (rule.selectors style depth) (withoutBlanks rule.plainSelectors) := by
  have hcomma : Reveals [',', ' '] [','] := Reveals.ink rfl (by decide) (Reveals.blank rfl Reveals.nil)
  have hbreak : Reveals [',', '\n'] [','] := Reveals.ink rfl (by decide) (Reveals.blank rfl Reveals.nil)
  have hplain : withoutBlanks rule.plainSelectors
      = [','].intercalate ((rule.resolved.getD []).map fun line =>
        [','].intercalate (line.map withoutBlanks)) := by
    have hsep : ([','] : Text).filter (fun c => !Text.isBlank c) = [','] := rfl
    rw [withoutBlanks, Rule.plainSelectors, Text.filter_intercalate, hsep, List.map_map]
    congr 1
    refine List.map_congr_left fun line _ => ?_
    rw [Function.comp_apply, Text.filter_intercalate, hsep]
    rfl
  -- blanks stand only behind the commas, inside of a line and between lines
  have hline : ∀ line ∈ rule.resolved.getD [],
      Reveals ([',', ' '].intercalate line) ([','].intercalate (line.map withoutBlanks)) := by
    intro line hline
    refine hcomma.intercalate (by decide) (by decide) (List.forall₂_map_right_iff.2 ?_)
    exact List.forall₂_same.2 fun selector hmem => Reveals.of_opensNoComment (h line hline selector hmem)
  rw [hplain]
  unfold Rule.selectors
  simp only [if_neg hstyle]
  split
  · refine hbreak.intercalate (by decide) (by decide) ?_
    rw [List.map_map, List.forall₂_map_left_iff, List.forall₂_map_right_iff]
    exact List.forall₂_same.2 fun line hmem => (hline line hmem).spacing_append (Spacing.indent depth)
  · refine Reveals.spacing_append (Spacing.indent depth)
      (hcomma.intercalate (by decide) (by decide) ?_)
    rw [List.forall₂_map_left_iff, List.forall₂_map_right_iff]
    exact List.forall₂_same.2 fun line hmem => hline line hmem

include hparts in
/-- The children of a rule with blanks between them. -/
theorem reveals_childTexts {gap : Char} (hgap : gap = ' ' ∨ gap = '\n') (depth : Int) :
    Reveals ([gap].intercalate (Rule.childTexts style depth parts)) us.flatten := by
  have hsep : Reveals [gap] [] := Reveals.of_spacing (List.forall_mem_singleton.2 hgap)
  have hends : gap ≠ '*' ∧ [gap].getLast? ≠ some '/' := by
    rcases hgap with rfl | rfl <;> decide
  -- the texts that are left out reveal nothing
  have htexts : ∃ list, List.Forall₂ Reveals (Rule.childTexts style depth parts) list
      ∧ list.flatten = us.flatten := by
    unfold Rule.childTexts
    induction hparts with
    | nil => exact ⟨[], List.Forall₂.nil, rfl⟩
    | @cons part u parts us hpart _ ih =>
      obtain ⟨list, hlist, hflatten⟩ := ih
      have htext := (hpart depth).dropEndWhile (p := (· == '\n')) fun c hc => by
        rw [beq_iff_eq.1 hc]
        rfl
      rw [List.map_cons, List.filter_cons]
      split
      · exact ⟨u :: list, List.Forall₂.cons htext hlist, by rw [List.flatten_cons, hflatten]; rfl⟩
      · next hempty =>
        have hnil : Text.dropEndWhile (· == '\n') (part.layout style depth) = [] := by
          simpa using hempty
        rw [hnil] at htext
        have hu : u = [] := by
          rw [← htext.eq, withoutComments]
          rfl
        exact ⟨list, hlist, by rw [hflatten, hu]; rfl⟩
  obtain ⟨list, hlist, hflatten⟩ := htexts
  have hjoined := hsep.intercalate hends.1 hends.2 hlist
  rwa [intercalate_nil, hflatten] at hjoined

include hparts in
theorem reveals_linesOf (depth : Int) : Reveals (linesOf style depth parts) us.flatten := by
  unfold linesOf
  induction hparts with
  | nil => exact Reveals.nil
  | cons hpart _ ih =>
    rw [List.flatMap_cons, List.flatten_cons, List.append_assoc]
    exact (hpart depth).append (Reveals.blank rfl ih) fun _ => nofun

/-- What follows a part of a compact block starts with a blank, if anything does. -/
theorem head?_compactOf {before : Before} (h : before ≠ .nothing) (depth : Int) (parts : List Part) :
    (compactOf depth before parts).head? ≠ some '*' := by
  cases parts with
  | nil => exact nofun
  | cons part parts =>
    cases before with
    | nothing => exact absurd rfl h
    | declaration => cases part <;> exact nofun
    | other => cases part <;> exact nofun

theorem reveals_compactOf {parts : List Part} {us : List Text}
    (hparts : List.Forall₂ (Part.Reveals .compact) parts us) (depth : Int) (before : Before) :
    Reveals (compactOf depth before parts) us.flatten := by
  induction hparts generalizing before with
  | nil => exact Reveals.nil
  | @cons part u parts us hpart _ ih =>
    -- a part in its place, with what follows it
    have hnext : ∀ (t : Text) (next : Before), next ≠ .nothing → Reveals t u →
        Reveals (t ++ compactOf depth next parts) (u :: us).flatten :=
      fun t next hnext ht => ht.append (ih next) fun _ => head?_compactOf hnext depth parts
    cases part with
    | declaration d =>
      cases before with
      | nothing => exact hnext _ .declaration (by decide) (hpart 1)
      | declaration => exact Reveals.blank rfl (hnext _ .declaration (by decide) (hpart 1))
      | other => exact Reveals.blank rfl (hnext _ .declaration (by decide) (hpart depth))
    | text t =>
      have ht : Reveals t u := hpart 1
      cases before with
      | nothing => exact hnext _ .other (by decide) ht.strip
      | declaration => exact Reveals.blank rfl (hnext _ .other (by decide) ht.stripEnd)
      | other => exact Reveals.blank rfl (hnext _ .other (by decide) ht.stripEnd)

include hstyle hparts

theorem reveals_blockBody (depth : Int) : Reveals (blockBody style depth parts) us.flatten := by
  cases style with
  | nested => exact reveals_linesOf hparts depth
  | expanded => exact reveals_linesOf hparts depth
  | compact => exact reveals_compactOf hparts depth .nothing
  | compressed => exact absurd rfl hstyle

/-- What a rule reveals: its selectors and its parts in braces. -/
theorem reveals_ruleLayout {note : Text} (hnote : Reveals note [] ∧ note.getLast? ≠ some '/')
    {rule : Rule} (h : ∀ line ∈ rule.resolved.getD [], ∀ selector ∈ line, OpensNoComment selector)
    (depth : Int) : Reveals (rule.layout style note depth parts)
      (withoutBlanks rule.plainSelectors ++ '{' :: us.flatten ++ ['}']) := by
  obtain ⟨gap, close, final, hgap, hclose, hfinal, hlayout⟩ :=
    Rule.layout_shape hstyle note depth rule parts
  obtain ⟨c, hc, rfl⟩ : ∃ c, (c = ' ' ∨ c = '\n') ∧ gap = [c] := by
    rcases hgap with rfl | rfl
    · exact ⟨_, Or.inl rfl, rfl⟩
    · exact ⟨_, Or.inr rfl, rfl⟩
  have hselectors := hnote.1.append (reveals_selectors hstyle h depth) fun heq => absurd heq hnote.2
  have hgap : Spacing [c] := List.forall_mem_singleton.2 hc
  have hchildren := Reveals.spacing_append hgap
    (reveals_childTexts hparts hc (Rule.childDepth style depth))
  have hfinal : Spacing final := by rcases hfinal with rfl | rfl <;> decide
  rw [hlayout]
  exact hselectors.braces hchildren (by decide) hclose hfinal

/-- What a directive with a block reveals: its value and its parts in braces. -/
theorem reveals_layoutBlock {d : Directive} (h : OpensNoComment d.value) (depth : Int) :
    Reveals (d.layoutBlock style depth parts)
      (withoutBlanks d.value ++ '{' :: us.flatten ++ ['}']) := by
  obtain ⟨lead, gap, inner, close, final, hlead, hgap, hinner, hclose, hfinal, hlayout⟩ :=
    Directive.layoutBlock_shape style depth d parts
  have hbody := ((reveals_blockBody hstyle hparts (depth + 1)).spacing_append hinner).stripEnd
  have hfinal : Spacing final := by rcases hfinal with rfl | rfl <;> decide
  rw [hlayout]
  exact ((Reveals.of_opensNoComment h).spacing_append hlead).braces hbody hgap hclose hfinal

end Layout

/-! ## What a sheet with line notes reveals -/

/-- A note reveals nothing. -/
theorem reveals_commentOf {options : Options} {rule : Rule} (hdirectory : '*' ∉ options.directory)
    (h : ∀ name ∈ rule.origin.filename, ¬ ['*', '/'] <:+: name) (depth : Int) :
    Reveals (SourceNote.commentOf options rule depth) []
      ∧ (SourceNote.commentOf options rule depth).getLast? ≠ some '/' := by
  have hfile : afterCommentEnd? (SourceNote.fileOf options rule) = none := by
    rw [SourceNote.fileOf]
    cases hname : rule.origin.filename with
    | none => rfl
    | some name =>
      exact Path.afterCommentEnd?_shown options.base hdirectory (afterCommentEnd?_eq_none.2 (h name hname))
  obtain ⟨lead, hstar, heq⟩ := SourceNote.exists_commentOf options rule depth
  have hinside : afterCommentEnd? (lead ++ SourceNote.fileOf options rule) = none := by
    rw [afterCommentEnd?_skip hstar, hfile]
  have hcomment := Reveals.comment hinside (Reveals.blank (c := '\n') rfl Reveals.nil)
  rw [heq, List.append_assoc]
  refine ⟨hcomment.spacing_append (Spacing.indent depth), ?_⟩
  rw [List.getLast?_append, List.cons_append, List.cons_append, List.getLast?_cons,
    List.getLast?_cons, List.getLast?_append]
  intro hlast
  cases hlast

section Tree

variable {options : Options}

mutual

/-- **A tree with line notes reveals its plain text**, in every style but the compressed one. -/
theorem reveals_part (hstyle : options.style ≠ .compressed) (hdirectory : '*' ∉ options.directory)
    (depth : Int) : ∀ {node : Node}, node.IsCommentFree →
    (node.part options.style (SourceNote.commentOf options) depth).Reveals options.style
      (withoutBlanks (node.plain fun _ => []))
  | .rule r children, h => by
    obtain ⟨hselectors, hfile, hchildren⟩ := h
    obtain ⟨us, hparts, hflatten⟩ :=
      reveals_parts hstyle hdirectory (Rule.childDepth options.style (depth + r.depth)) hchildren
    have hrule := reveals_ruleLayout hstyle hparts
      (reveals_commentOf hdirectory hfile (depth + r.depth)) hselectors (depth + r.depth)
    rw [hflatten] at hrule
    intro _
    rw [Node.part, Node.plain, withoutBlanks_braces]
    exact hrule
  | .declaration d, h => fun place => reveals_declaration hstyle h.1 h.2 place
  | .directive d, h => by
    have hvalue := (Reveals.of_opensNoComment h).spacing_append
      (Directive.spacing_indent options.style depth)
    have hend := Reveals.append_mark (c := ';') rfl (by decide) hvalue Reveals.nil
    intro _
    rw [Node.part, Node.plain, withoutBlanks_append]
    exact hend
  | .block d children, h => by
    obtain ⟨hvalue, hchildren⟩ := h
    intro _
    rw [Node.part, Node.plain, withoutBlanks_braces]
    by_cases hempty : children.isEmpty = true
    · -- the braces of an empty block stand on one line
      have hindent := (Reveals.of_opensNoComment hvalue).spacing_append
        (Directive.spacing_indent options.style depth)
      have hbraces := hindent.braces Reveals.nil (show Spacing [' '] by decide) Spacing.nil Spacing.nil
      rw [if_pos hempty, List.isEmpty_iff.1 hempty]
      simpa [Node.plainAll, withoutBlanks, Part.layout] using hbraces
    · obtain ⟨us, hparts, hflatten⟩ := reveals_parts hstyle hdirectory (depth + 1) hchildren
      have hblock := reveals_layoutBlock hstyle hparts hvalue depth
      rw [hflatten] at hblock
      rw [if_neg hempty, if_neg hstyle]
      exact hblock
  | .sheet _ _, _ => fun _ => Reveals.nil

theorem reveals_parts (hstyle : options.style ≠ .compressed) (hdirectory : '*' ∉ options.directory)
    (depth : Int) : ∀ {nodes : List Node}, Node.AreCommentFree nodes →
    ∃ us, List.Forall₂ (Part.Reveals options.style)
        (Node.parts options.style (SourceNote.commentOf options) depth nodes) us
      ∧ us.flatten = withoutBlanks (Node.plainAll (fun _ => []) nodes)
  | [], _ => ⟨[], List.Forall₂.nil, rfl⟩
  | node :: nodes, h => by
    obtain ⟨us, hparts, hflatten⟩ := reveals_parts hstyle hdirectory depth h.2
    rw [Node.parts, Node.plainAll]
    split
    · refine ⟨_ :: us, List.Forall₂.cons (reveals_part hstyle hdirectory depth h.1) hparts, ?_⟩
      rw [List.flatten_cons, hflatten, withoutBlanks_append]
    · exact ⟨us, hparts, hflatten⟩

end

/-- A sheet with line notes reveals its plain text. -/
theorem reveals_layoutSheet (hstyle : options.style ≠ .compressed)
    (hdirectory : '*' ∉ options.directory) {nodes : List Node} (h : Node.AreCommentFree nodes) :
    Reveals (layoutSheet options.style (SourceNote.commentOf options) nodes)
      (withoutBlanks (Node.plainAll (fun _ => []) nodes)) := by
  obtain ⟨us, hparts, hflatten⟩ := reveals_parts hstyle hdirectory 1 h
  have hbody := (reveals_linesOf hparts 1).stripEnd
  rw [hflatten] at hbody
  unfold layoutSheet
  simp only [if_neg hstyle]
  split
  · next hempty =>
    rw [List.isEmpty_iff.1 hempty] at hbody
    exact hbody
  · exact hbody.append_spacing (by decide)

end Tree

/-! ## Notes in the compressed style -/

mutual

/-- There are no notes in the compressed style. -/
theorem part_compressed (annotate annotate' : Rule → Int → Text) (depth : Int) : ∀ node : Node,
    node.part .compressed annotate depth = node.part .compressed annotate' depth
  | .rule r children => by
    rw [Node.part, Node.part, parts_compressed annotate annotate' _ children]
    rfl
  | .declaration _ => rfl
  | .directive _ => rfl
  | .block d children => by
    rw [Node.part, Node.part, parts_compressed annotate annotate' _ children]
  | .sheet _ _ => rfl

theorem parts_compressed (annotate annotate' : Rule → Int → Text) (depth : Int) :
    ∀ nodes : List Node, Node.parts .compressed annotate depth nodes
      = Node.parts .compressed annotate' depth nodes
  | [] => rfl
  | node :: nodes => by
    rw [Node.parts, Node.parts, part_compressed annotate annotate' depth node,
      parts_compressed annotate annotate' depth nodes]

end

/-- **Line notes only add comments.**  A sheet of resolved rules, declarations and directives in
which no comment starts in a selector, name or value and none ends in the name of a file can be
written with and without line notes.  In the compressed style both texts are the same.  In the
other styles the first one without its comments is the second one, but for the blanks. -/
theorem render_lineNotes (options : Options) (sheet : Sheet)
    (hdirectory : '*' ∉ options.directory)
    (hresolved : Node.firstOf? Node.isUnwritable sheet.children = none)
    (hfree : Node.AreCommentFree sheet.children) :
    ∃ noted bare, sheet.render { options with note := .comment } = .ok noted
      ∧ sheet.render { options with note := .off } = .ok bare
      ∧ (options.style = .compressed → noted = bare)
      ∧ (options.style ≠ .compressed →
        withoutBlanks (withoutComments noted) = withoutBlanks bare) := by
  refine ⟨layoutSheet options.style (SourceNote.commentOf { options with note := .comment })
      sheet.children, layoutSheet options.style SourceNote.silent sheet.children, ?_, ?_, ?_, ?_⟩
  · rw [Sheet.render, Node.render, hresolved]
    rfl
  · rw [Sheet.render, Node.render, hresolved]
    rfl
  · intro hstyle
    rw [hstyle]
    unfold layoutSheet
    rw [parts_compressed _ SourceNote.silent]
  · intro hstyle
    have hnoted := @reveals_layoutSheet { options with note := .comment } hstyle hdirectory _ hfree
    have hbare := @filter_layoutSheet (fun c => !Text.isBlank c) options.style SourceNote.silent
      (fun _ => [])
      ⟨fun c hc => by simp [hc], fun heq => absurd heq hstyle, fun _ _ => by split <;> rfl⟩
      sheet.children
    rw [hnoted.eq]
    exact hbare.symm

/-- A rule in a compact block, with a star at the end of the name of its file. -/
theorem render_lineNotes_block :
    let rule : Rule := { resolved := some [["a".toList]], origin := ⟨some 3, some "/s/t/b*".toList⟩ }
    let sheet : Sheet := { children := [.block { value := "@media c".toList }
      [.rule rule [.declaration { name := "d".toList, value := "/ *".toList }]]] }
    let options : Options := { style := .compact, base := some "/s/u".toList }
    '*' ∉ options.directory ∧ Node.firstOf? Node.isUnwritable sheet.children = none
      ∧ Node.AreCommentFree sheet.children
      ∧ sheet.render { options with note := .comment }
        = .ok "@media c \x7b /* line 3, ../t/b* */\n  a \x7b d: / *; \x7d \x7d\n".toList
      ∧ ∃ noted bare, sheet.render { options with note := .comment } = .ok noted
        ∧ sheet.render { options with note := .off } = .ok bare
        ∧ withoutBlanks (withoutComments noted) = withoutBlanks bare := by
  intro rule sheet options
  have hfree : Node.AreCommentFree sheet.children :=
    ⟨⟨by decide, ⟨by decide, by decide, ⟨by decide, by decide⟩, trivial⟩, trivial⟩, trivial⟩
  refine ⟨by decide, rfl, hfree, by decide +kernel, ?_⟩
  obtain ⟨noted, bare, hnoted, hbare, -, h⟩ := render_lineNotes options sheet (by decide) rfl hfree
  exact ⟨noted, bare, hnoted, hbare, h nofun⟩

end NestedSheet
