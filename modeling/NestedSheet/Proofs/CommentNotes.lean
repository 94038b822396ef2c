import NestedSheet.Layout
import NestedSheet.Proofs.Identifiers
import NestedSheet.Proofs.Lexing
import NestedSheet.Proofs.Positions
import NestedSheet.Proofs.Respacing

/-!
# Notes in comments

The comment before a rule holds the name of its file as it is.  So the note is one
comment exactly if no comment ends inside of that name (`isOneComment_commentOf`), and
then what follows the note is read as if the note were not there (`lexes_commentOf`).

A text may have any line endings before it is read.  Making them alike does not bring
about the end of a comment, nor does it take one away (`afterCommentEnd?_normalizeNewlines`).
-/

namespace NestedSheet

open Component

/-! ## Line endings -/

theorem normalizeNewlines_cons {c : Char} {cs : Text} (h : ¬ (c = '\r' ∧ cs.head? = some '\n')) :
    normalizeNewlines (c :: cs)
      = (if c = '\r' ∨ c = '\x0c' then '\n' else if c = '\x00' then replacement else c)
        :: normalizeNewlines cs := by
  rw [normalizeNewlines]
  rintro ds rfl rfl
  exact h ⟨rfl, rfl⟩

/-- The line endings of two texts are made alike separately, unless one line ending stands
in both. -/
theorem normalizeNewlines_append {t u : Text} (h : t.getLast? ≠ some '\r' ∨ u.head? ≠ some '\n') :
    normalizeNewlines (t ++ u) = normalizeNewlines t ++ normalizeNewlines u := by
  fun_induction normalizeNewlines t with
  | case1 => rfl
  | case2 cs ih =>
    -- both characters of the line ending are in the first text
    have hcs : cs.getLast? ≠ some '\r' ∨ u.head? ≠ some '\n' := by
      refine h.imp_left fun hlast hcs => hlast ?_
      rw [List.getLast?_cons, List.getLast?_cons, hcs]
      rfl
    rw [List.cons_append, List.cons_append, normalizeNewlines, ih hcs]
    rfl
  | case3 c cs hpair ih =>
    -- a newline that belongs to this return could only be the first character of `u`
    have hc : ¬ (c = '\r' ∧ (cs ++ u).head? = some '\n') := by
      rintro ⟨rfl, hhead⟩
      cases cs with
      | nil => exact h.elim (fun hlast => hlast rfl) fun hfirst => hfirst hhead
      | cons d ds =>
        obtain rfl : d = '\n' := Option.some.inj hhead
        exact hpair ds rfl rfl
    have hcs : cs.getLast? ≠ some '\r' ∨ u.head? ≠ some '\n' := by
      refine h.imp_left fun hlast hcs => hlast ?_
      rw [List.getLast?_cons, hcs]
      rfl
    rw [List.cons_append, normalizeNewlines_cons hc, ih hcs]
    rfl

/-- No line ending becomes a slash, and a slash stays one. -/
theorem head?_normalizeNewlines (t : Text) :
    (normalizeNewlines t).head? = some '/' ↔ t.head? = some '/' := by
  fun_cases normalizeNewlines t with
  | case1 => exact Iff.rfl
  | case2 cs => exact ⟨nofun, nofun⟩
  | case3 c cs =>
    rw [List.head?_cons, List.head?_cons]
    split
    · next hc => rcases hc with rfl | rfl <;> exact ⟨nofun, nofun⟩
    · split
      · next hc => rw [hc]; exact ⟨nofun, nofun⟩
      · exact Iff.rfl

/-- The end of a comment does not depend on the line endings. -/
theorem afterCommentEnd?_normalizeNewlines (t : Text) :
    afterCommentEnd? (normalizeNewlines t) = (afterCommentEnd? t).map normalizeNewlines := by
  fun_induction afterCommentEnd? t with
  | case1 => rfl
  | case2 cs =>
    rw [normalizeNewlines_cons (by simp), normalizeNewlines_cons (by simp)]
    rfl
  | case3 c cs hend ih =>
    rw [← ih]
    by_cases hpair : c = '\r' ∧ cs.head? = some '\n'
    · -- the two characters are one line ending
      obtain ⟨rfl, hhead⟩ := hpair
      obtain ⟨ds, rfl⟩ := List.head?_eq_some_iff.1 hhead
      rw [normalizeNewlines, normalizeNewlines_cons (by simp)]
      rfl
    · rw [normalizeNewlines_cons hpair, afterCommentEnd?_cons]
      -- an end mark after the change was one before it: its slash was a slash, its star a star
      rintro ⟨hstar, hhead⟩
      rw [head?_normalizeNewlines] at hhead
      obtain ⟨ds, rfl⟩ := List.head?_eq_some_iff.1 hhead
      split at hstar
      · cases hstar
      · split at hstar
        · cases hstar
        · exact hend ds hstar rfl

/-! ## The inside of a comment -/

/-- A comment ends in a text just if its end mark stands there. -/
theorem afterCommentEnd?_eq_none {t : Text} : afterCommentEnd? t = none ↔ ¬ ['*', '/'] <:+: t := by
  fun_induction afterCommentEnd? t with
  | case1 => simp
  | case2 cs =>
    exact ⟨fun h => absurd h (Option.some_ne_none cs),
      fun h => absurd (List.prefix_append ['*', '/'] cs).isInfix h⟩
  | case3 c cs hend ih =>
    rw [ih, List.infix_cons_iff, not_or]
    refine ⟨fun h => ⟨?_, h⟩, And.right⟩
    rintro ⟨u, hu⟩
    cases hu
    exact hend u rfl rfl

theorem afterCommentEnd?_cons_eq_none {c : Char} {cs : Text} : afterCommentEnd? (c :: cs) = none
    ↔ ¬ (c = '*' ∧ cs.head? = some '/') ∧ afterCommentEnd? cs = none := by
  by_cases hend : c = '*' ∧ cs.head? = some '/'
  · obtain ⟨rfl, hhead⟩ := hend
    obtain ⟨ds, rfl⟩ := List.head?_eq_some_iff.1 hhead
    exact ⟨fun h => absurd h (Option.some_ne_none ds), fun h => absurd ⟨rfl, rfl⟩ h.1⟩
  · rw [afterCommentEnd?_cons hend]
    exact (and_iff_right hend).symm

/-- No comment ends in a text without a star. -/
theorem afterCommentEnd?_skip {t : Text} (h : '*' ∉ t) (rest : Text) :
    afterCommentEnd? (t ++ rest) = afterCommentEnd? rest := by
  induction t with
  | nil => rfl
  | cons c cs ih =>
    rw [List.mem_cons, not_or] at h
    rw [List.cons_append, afterCommentEnd?_cons fun hc => h.1 hc.1.symm, ih h.2]

/-- Where a comment ends, it also ends before a longer text. -/
theorem afterCommentEnd?_append {t u : Text} (h : afterCommentEnd? t = some u) (rest : Text) :
    afterCommentEnd? (t ++ rest) = some (u ++ rest) := by
  fun_induction afterCommentEnd? t with
  | case1 => cases h
  | case2 cs =>
    obtain rfl := Option.some.inj h
    rfl
  | case3 c cs hend ih =>
    have hne : cs ≠ [] := by
      rintro rfl
      cases h
    rw [List.cons_append, afterCommentEnd?_cons, ih h]
    -- an end mark across the border is impossible, since `cs` is not empty
    rintro ⟨rfl, hhead⟩
    obtain ⟨d, ds, rfl⟩ := List.exists_cons_of_ne_nil hne
    obtain rfl : d = '/' := Option.some.inj hhead
    exact hend ds rfl rfl

/-- Where no comment ends, none ends before a space either. -/
theorem afterCommentEnd?_space {t : Text} (h : afterCommentEnd? t = none) (rest : Text) :
    afterCommentEnd? (t ++ ' ' :: rest) = afterCommentEnd? rest := by
  fun_induction afterCommentEnd? t with
  | case1 => exact afterCommentEnd?_cons fun hc => absurd hc.1 (by decide)
  | case2 cs => cases h
  | case3 c cs hend ih =>
    rw [List.cons_append, afterCommentEnd?_cons, ih h]
    rintro ⟨rfl, hhead⟩
    cases cs with
    | nil => cases hhead
    | cons d ds =>
      obtain rfl : d = '/' := Option.some.inj hhead
      exact hend ds rfl rfl

/-! ## Comments in their place -/

/-- A comment is read up to its end. -/
theorem readComment_of_end {t rest : Text} (h : afterCommentEnd? t = some rest) :
    (Lexeme.readComment t).2 = rest := by
  fun_induction Lexeme.readComment t with
  | case1 => cases h
  | case2 cs => exact Option.some.inj h
  | case3 c cs hend more ih =>
    refine ih ?_
    rwa [afterCommentEnd?] at h
    exact hend

theorem next_comment {t rest : Text} (h : afterCommentEnd? t = some rest) :
    Lexeme.next '/' ('*' :: t) = (.comment (Lexeme.readComment t).1, rest) := by
  rw [IsPunctuation.next ⟨rfl, rfl, rfl, by decide⟩, ← readComment_of_end h]
  rfl

/-- A complete comment is no component. -/
theorem lexes_comment {t rest : Text} (h : afterCommentEnd? (t ++ rest) = some rest) (p : Position) :
    Lexes p ('/' :: '*' :: t) [] rest := by
  have hnext : Lexeme.next '/' (('*' :: t) ++ rest) = _ := next_comment h
  refine ⟨fun frames inside => ?_, firstExcess?_next p hnext rfl⟩
  rw [scan_next p hnext, nest]
  rfl

theorem ofText_comment {t rest : Text} (h : afterCommentEnd? t = some rest) :
    ∃ u text, Stretch.ofText ('/' :: '*' :: t) = ⟨u, .comment text⟩ :: Stretch.ofText rest := by
  obtain ⟨u, more, lexeme, -, hnext, hstretches⟩ := Stretch.exists_ofText_cons '/' ('*' :: t)
  obtain ⟨rfl, rfl⟩ := Prod.mk.inj ((next_comment h).symm.trans hnext)
  exact ⟨_, _, hstretches⟩

/-! ## Whitespace in its place -/

namespace Stretch

/-- Spaces are one stretch, if there are any. -/
theorem filter_ofText_spaces {t rest : Text} (ht : ∀ c ∈ t, Component.isSpace c = true)
    (hrest : rest.head?.any Component.isSpace = false) :
    (ofText (t ++ rest)).filter (fun a => !a.isSpace) = (ofText rest).filter fun a => !a.isSpace := by
  cases t with
  | nil => rfl
  | cons c cs =>
    obtain ⟨hc, hcs⟩ := List.forall_mem_cons.1 ht
    have hnext : Lexeme.next c (cs ++ rest) = (.leaf (.whitespace (c :: cs)), rest) := by
      unfold Lexeme.next
      rw [if_pos hc, takeWhile_run hcs hrest, dropWhile_run hcs hrest]
    rw [ofText_next hnext]
    rfl

/-- A stretch of whitespace is made of spaces. -/
theorem isSpace_text {t : Text} {a : Stretch} (ha : a ∈ ofText t) (hspace : a.isSpace = true) :
    ∀ c ∈ a.text, Component.isSpace c = true := by
  obtain ⟨c, u, rest, htext, hnext⟩ := exists_next a ha
  obtain ⟨text, hlexeme⟩ : ∃ text, a.lexeme = .leaf (.whitespace text) := by
    unfold Stretch.isSpace at hspace
    split at hspace
    · exact ⟨_, by assumption⟩
    · cases hspace
  rw [hlexeme] at hnext
  obtain ⟨hc, -, hrest⟩ := Lexeme.next_eq_whitespace hnext
  -- what is read are the spaces that the text goes on with
  have hu : (u ++ rest).takeWhile Component.isSpace = u := by
    have happend := @List.takeWhile_append_dropWhile _ Component.isSpace (u ++ rest)
    rw [← hrest] at happend
    exact List.append_cancel_right happend
  rw [htext, List.forall_mem_cons]
  exact ⟨hc, fun d hd => List.mem_takeWhile_imp (hu.symm ▸ hd)⟩

/-- A text that has a character other than spaces has a stretch that is no whitespace. -/
theorem filter_ofText_ne_nil {t : Text} {c : Char} (hmem : c ∈ t) (hc : Component.isSpace c = false) :
    (ofText t).filter (fun a => !a.isSpace) ≠ [] := by
  intro hnil
  rw [List.filter_eq_nil_iff] at hnil
  rw [← textOf_ofText t, textOf, List.mem_flatMap] at hmem
  obtain ⟨a, ha, hca⟩ := hmem
  have hspace : a.isSpace = true := by simpa using hnil a ha
  rw [isSpace_text ha hspace c hca] at hc
  cases hc

end Stretch

/-! ## One comment -/

/-- The text is one comment with whitespace around it. -/
def IsOneComment (t : Text) : Prop :=
  ∃ a, (Stretch.ofText t).filter (fun b => !b.isSpace) = [a] ∧ a.isComment = true

theorem isSpace_indent (depth : Int) : ∀ c ∈ Text.indent depth, Component.isSpace c = true := by
  intro c hc
  rw [List.eq_of_mem_replicate hc]
  rfl

section Inside

variable {inside : Text}

/-- A comment with its end mark ends with it, if none ends before. -/
theorem afterCommentEnd?_closed (h : afterCommentEnd? inside = none) (rest : Text) :
    afterCommentEnd? (normalizeNewlines inside ++ " */".toList ++ rest) = some rest := by
  have hnone : afterCommentEnd? (normalizeNewlines inside) = none := by
    rw [afterCommentEnd?_normalizeNewlines, h]
    rfl
  rw [List.append_assoc]
  exact afterCommentEnd?_space hnone ('*' :: '/' :: rest)

/-- The line endings of an indented comment are those of its inside. -/
theorem normalizeNewlines_comment (depth : Int) (inside : Text) :
    normalizeNewlines (Text.indent depth ++ '/' :: '*' :: inside ++ " */\n".toList)
      = Text.indent depth ++ '/' :: '*' :: (normalizeNewlines inside ++ " */".toList) ++ ['\n'] := by
  have hindent : ∀ c ∈ Text.indent depth, isNormal c = true := fun c hc => by
    rw [List.eq_of_mem_replicate hc]
    rfl
  have hend := @normalizeNewlines_append (Text.indent depth ++ '/' :: '*' :: inside) " */\n".toList
    (Or.inr (by decide))
  have hstart := @normalizeNewlines_append (Text.indent depth) ('/' :: '*' :: inside)
    (Or.inr (by simp))
  rw [hend, hstart, normalizeNewlines_eq_self hindent, normalizeNewlines_cons (by simp),
    normalizeNewlines_cons (by simp), normalizeNewlines_eq_self (t := " */\n".toList) (List.all_eq_true.1 rfl)]
  simp

/-- **A comment is one comment if none ends inside of it.** -/
theorem isOneComment_iff (depth : Int) (inside : Text) :
    IsOneComment (normalizeNewlines (Text.indent depth ++ '/' :: '*' :: inside ++ " */\n".toList))
      ↔ afterCommentEnd? inside = none := by
  rw [normalizeNewlines_comment, List.append_assoc, IsOneComment,
    Stretch.filter_ofText_spaces (isSpace_indent depth) rfl, List.cons_append, List.cons_append]
  constructor
  · rintro ⟨a, ha, -⟩
    cases hend : afterCommentEnd? inside with
    | none => rfl
    | some rest =>
      -- the end mark of the note is left over
      have hnormal : afterCommentEnd? (normalizeNewlines inside) = some (normalizeNewlines rest) := by
        rw [afterCommentEnd?_normalizeNewlines, hend]
        rfl
      have hearly := afterCommentEnd?_append hnormal (" */".toList ++ ['\n'])
      rw [← List.append_assoc] at hearly
      obtain ⟨u, text, hstretches⟩ := ofText_comment hearly
      rw [hstretches] at ha
      have hnil := (List.cons.inj ha).2
      exact absurd hnil (Stretch.filter_ofText_ne_nil (c := '*') (by simp) rfl)
  · intro h
    obtain ⟨u, text, hstretches⟩ := ofText_comment (afterCommentEnd?_closed h ['\n'])
    have hnewline := @Stretch.filter_ofText_spaces ['\n'] [] (List.forall_mem_singleton.2 rfl) rfl
    refine ⟨⟨u, .comment text⟩, ?_, rfl⟩
    rw [hstretches, List.filter_cons_of_pos rfl, ← List.append_nil ['\n'], hnewline,
      Stretch.ofText_nil]
    rfl

end Inside

/-! ## Notes -/

theorem Path.shown_nil (directory : Text) (base : Option Text) : shown directory base [] = [] := by
  unfold shown
  split
  · rfl
  · exact if_pos (by simp)

namespace SourceNote

/-- The name of the file of a rule as a note shows it; empty if there is none. -/
def fileOf (options : Options) (rule : Rule) : Text :=
  (rule.origin.filename.map (Path.shown options.directory options.base)).getD []

theorem commentOf_eq (options : Options) (rule : Rule) (depth : Int) : commentOf options rule depth
    = Text.indent depth ++ "/* line ".toList ++ rule.origin.line.elim "None".toList Text.ofInt
      ++ rule.origin.filename.elim [] (fun name => if name = [] then []
        else ',' :: ' ' :: Path.shown options.directory options.base name)
      ++ " */\n".toList := by
  unfold commentOf
  cases rule.origin.line <;> rcases rule.origin.filename with _ | (_ | ⟨c, cs⟩) <;> rfl

/-- A note is a comment that holds the name of the file behind a text without a star. -/
theorem exists_commentOf (options : Options) (rule : Rule) (depth : Int) : ∃ lead : Text, '*' ∉ lead
    ∧ commentOf options rule depth
      = Text.indent depth ++ '/' :: '*' :: (lead ++ fileOf options rule) ++ " */\n".toList := by
  have hline : '*' ∉ rule.origin.line.elim "None".toList Text.ofInt := by
    cases rule.origin.line with
    | none => decide
    | some n => exact fun hmem => absurd (Text.ofInt_chars n _ hmem) (by decide)
  rw [commentOf_eq, fileOf]
  generalize rule.origin.line.elim "None".toList Text.ofInt = line at hline ⊢
  have hshort : '*' ∉ " line ".toList ++ line := by simpa using hline
  cases rule.origin.filename with
  | none => exact ⟨" line ".toList ++ line, hshort, by simp⟩
  | some name =>
    by_cases hname : name = []
    · -- an empty name is left out, and it is shown as nothing
      subst hname
      exact ⟨" line ".toList ++ line, hshort, by simp [Path.shown_nil]⟩
    · exact ⟨" line ".toList ++ line ++ [',', ' '], by simpa using hline, by simp [hname]⟩

/-- **A note is one comment**, whatever the line and the depth, just if no comment ends in the
name of the file. -/
theorem isOneComment_commentOf (options : Options) (rule : Rule) (depth : Int) :
    IsOneComment (normalizeNewlines (commentOf options rule depth))
      ↔ afterCommentEnd? (fileOf options rule) = none := by
  obtain ⟨lead, hstar, heq⟩ := exists_commentOf options rule depth
  rw [heq, isOneComment_iff, afterCommentEnd?_skip hstar]

/-- A note that is one comment leaves what follows it as it is. -/
theorem lexes_commentOf {options : Options} {rule : Rule} (depth : Int)
    (h : afterCommentEnd? (fileOf options rule) = none) : ∃ body,
      normalizeNewlines (commentOf options rule depth) = body ++ ['\n']
        ∧ ∀ p rest, Lexes p body (spaceComponents p (Text.indent depth)) rest := by
  obtain ⟨lead, hstar, heq⟩ := exists_commentOf options rule depth
  have hinside : afterCommentEnd? (lead ++ fileOf options rule) = none := by
    rw [afterCommentEnd?_skip hstar, h]
  rw [heq, normalizeNewlines_comment]
  refine ⟨_, rfl, fun p rest => ?_⟩
  have hindent := @lexes_spaces p _ ('/' :: '*' :: (normalizeNewlines (lead ++ fileOf options rule)
    ++ " */".toList) ++ rest) (isSpace_indent depth) rfl
  have hcomment := lexes_comment (afterCommentEnd?_closed hinside rest) (p.after (Text.indent depth))
  exact List.append_nil (spaceComponents p (Text.indent depth)) ▸ hindent.append hcomment

end SourceNote

end NestedSheet
