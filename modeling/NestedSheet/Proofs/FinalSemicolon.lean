import NestedSheet.Proofs.Insertion
import NestedSheet.Proofs.Reprinting
import NestedSheet.Proofs.Values

/-!
# The semicolon behind the last statement

A directive without a block can stand at the end of a block with a semicolon or without one.
With it the value is cut out of the source, without it the value is printed anew from the
components: strings in double quotes, URLs without the whitespace in their brackets, ranges
without question marks.  The printer keeps components apart with comments, and removing
comments takes these away again.  Do the two values say the same?

They do (`semicolon_optional`), and the rest of the stylesheet is the same, where each lexeme
of the directive can be printed anew where it stands (`Stretch.arePrintable`).  That leaves out
what printing without the comments joins: a unicode range would go on with the digit behind it
(`semicolon_not_optional`), and a unit that looks like an exponent is printed with the escape of
a small letter, which takes the space behind it.
-/

namespace NestedSheet

open Component

/-! ## Printing stretches anew -/

theorem hasCommentMark_spaces {t spaces : Text} (ht : hasCommentMark t = false)
    (h : ∀ c ∈ spaces, isSpace c = true) : hasCommentMark (t ++ spaces) = false := by
  induction spaces generalizing t with
  | nil => rwa [List.append_nil]
  | cons c spaces ih =>
    obtain ⟨hc, hspaces⟩ := List.forall_mem_cons.1 h
    rw [List.append_cons]
    refine ih ?_ hspaces
    rw [hasCommentMark_concat ?_, ht]
    rintro rfl
    cases hc

namespace Stretch

/-- What holds of every stretch that can be printed anew: whitespace stays. -/
inductive Keeps (a : Stretch) : Prop
  | space (hself : reprint a = a) (hspace : a.isSpace = true) (hreads : a.Reads) (hne : a.text ≠ [])
    (hchars : ∀ c ∈ a.text, Component.isSpace c = true)
  | word (h : Reprints a)

theorem Keeps.becomes {a : Stretch} (h : a.Keeps) : a.Becomes (reprint a) := by
  cases h with
  | space hself hspace _ _ hchars => exact Or.inl ⟨hself, hspace, hchars⟩
  | word h => exact Or.inr h.kin

/-- A stretch can stand for itself. -/
theorem Keeps.becomes_self {a : Stretch} (h : a.Keeps) : a.Becomes a := by
  cases h with
  | space _ hspace _ _ hchars => exact Or.inl ⟨rfl, hspace, hchars⟩
  | word h => exact Or.inr h.kin.refl_right

theorem Keeps.reads {a : Stretch} (h : a.Keeps) : (reprint a).Reads := by
  cases h with
  | space hself _ hreads _ _ => rwa [hself]
  | word h => exact h.reads

theorem Keeps.reprints {a : Stretch} (h : a.Keeps) (hspace : a.isSpace = false) : a.Reprints := by
  cases h with
  | space _ hspace' _ _ _ =>
    rw [hspace] at hspace'
    cases hspace'
  | word h => exact h

/-- A printed stretch is whitespace or stays when lines are stripped. -/
theorem Keeps.blank_or_sturdy {a : Stretch} (h : a.Keeps) :
    ((reprint a).isSpace = true → ∀ c ∈ (reprint a).text, Component.isSpace c = true)
      ∧ ((reprint a).isSpace = false → (reprint a).isSturdy = true) := by
  cases h with
  | space hself hspace _ _ hchars =>
    rw [hself]
    refine ⟨fun _ => hchars, fun hspace' => ?_⟩
    rw [hspace] at hspace'
    cases hspace'
  | word h =>
    refine ⟨fun hspace => ?_, fun _ => h.sturdy⟩
    rw [h.kin.isSpace_eq_false.1] at hspace
    cases hspace

theorem keeps_of_isSpace {a : Stretch} (h : a.Reads) (hspace : a.isSpace = true) : a.Keeps := by
  obtain ⟨hlexeme, hchars⟩ := h.whitespace hspace
  obtain ⟨text, lexeme⟩ := a
  obtain rfl : lexeme = .leaf (.whitespace text) := hlexeme
  obtain ⟨c, u, htext, -⟩ := h [] rfl
  exact .space rfl rfl h (by rw [htext]; exact List.cons_ne_nil c u) hchars

section Written

/-- A star is printed first only where it stood first. -/
theorem head_written {stretches : List Stretch} (h : ∀ a ∈ stretches, a.Keeps)
    (previous : Option Edge)
    (hhead : (textOf (written previous (stretches.map Stretch.lexeme))).head? = some '*') :
    (textOf stretches).head? = some '*' := by
  cases stretches with
  | nil => cases hhead
  | cons a stretches =>
    rw [List.map_cons, written, textOf_append, textOf_cons] at hhead
    split at hhead
    · cases hhead
    · rw [textOf_nil, List.nil_append] at hhead
      cases h a List.mem_cons_self with
      | space hself _ _ hne _ =>
        obtain ⟨c, cs, htext⟩ := List.exists_cons_of_ne_nil hne
        rw [show Stretch.mk a.lexeme.print a.lexeme = a from hself, htext] at hhead
        rw [textOf_cons, htext]
        exact hhead
      | word hword =>
        obtain ⟨c, d, cs, ds, hc, hd, -, -, -, heq⟩ := hword.kin.exists_cons
        rw [show Stretch.mk a.lexeme.print a.lexeme = reprint a from rfl, hc] at hhead
        obtain rfl : c = '*' := Option.some.inj hhead
        rw [textOf_cons, hd]
        rcases heq with heq | hlook
        · rw [heq, hd] at hc
          rw [(List.cons.inj hc).1]
          rfl
        · cases hlook

/-- **The comments between printed stretches are those that removing comments removes.** -/
theorem removeComments_written {stretches : List Stretch} (h : ∀ a ∈ stretches, a.Keeps)
    (hmark : hasCommentMark (textOf stretches) = false) : ∀ previous,
    removeComments (textOf (written previous (stretches.map Stretch.lexeme)))
      = textOf (stretches.map reprint) := by
  induction stretches with
  | nil =>
    intro previous
    show removeComments [] = []
    rw [removeComments]
  | cons a stretches ih =>
    intro previous
    obtain ⟨ha, hrest⟩ := List.forall_mem_cons.1 h
    rw [textOf_cons] at hmark
    have hmore := ih hrest (hasCommentMark_append hmark).2 a.lexeme.edge?
    have hself : removeComments
      ((reprint a).text ++ textOf (written a.lexeme.edge? (stretches.map Stretch.lexeme)))
        = (reprint a).text ++ textOf (stretches.map reprint) := by
      rw [← hmore]
      cases ha with
      | space hself _ _ _ hchars =>
        rw [hself]
        exact removeComments_spaces hchars
      | word h =>
        refine h.reads.removeComments_sturdy h.sturdy fun hslash hhead => ?_
        -- the slash stood in the source, with no star behind it
        obtain ⟨c, d, cs, ds, hc, hd, -, -, -, heq⟩ := h.kin.exists_cons
        rcases heq with heq | hlook
        · rw [heq] at hslash
          rw [hslash, List.singleton_append, hasCommentMark, head_written hrest _ hhead] at hmark
          cases hmark
        · rw [hslash] at hc
          rw [← (List.cons.inj hc).1] at hlook
          cases hlook
    rw [List.map_cons, written, textOf_append, textOf_cons, List.map_cons, textOf_cons, ← hself]
    split
    · exact @NestedSheet.removeComments_comment _ ['*', '/'] rfl
    · rfl

end Written

/-! ## Whitespace at the end -/

theorem respace_append_spaces {others : List Stretch} (h : ∀ a ∈ others, a.isSpace = true)
    (stretches : List Stretch) :
    ∀ gap, respace gap (stretches ++ others) = respace gap stretches := by
  induction stretches with
  | nil =>
    intro gap
    induction others generalizing gap with
    | nil => rfl
    | cons a others ih =>
      obtain ⟨ha, hothers⟩ := List.forall_mem_cons.1 h
      show respace gap (a :: others) = []
      rw [respace, if_pos ha]
      exact ih hothers _
  | cons a stretches ih =>
    intro gap
    rw [List.cons_append, respace, respace, ih, ih]

/-- **Stretches say the same when their whitespace is changed** and others with the same
lexemes are put in their place. -/
theorem inkOf_respace {f : Stretch → Stretch} {stretches : List Stretch} {tail : Text}
    (htail : glimpse tail = [])
    (hquote : Lexeme.startsQuote (tail.dropWhile Component.isSpace) = false)
    (hchained : chainedBefore tail stretches = true) (hf : ∀ a ∈ stretches, a.Becomes (f a))
    (hlexeme : ∀ a, (f a).lexeme = a.lexeme) (hreads : ∀ a ∈ stretches, (f a).Reads)
    (hnormal : ∀ a ∈ stretches, ∀ c ∈ (f a).text, isNormal c = true) :
    inkOf (Component.ofText (normalizeNewlines (textOf (respace [] (stretches.map f)))))
      = ofLexemes (stretches.flatMap fun a => onlyLexeme Leaf.isInk a.lexeme) := by
  have hself : normalizeNewlines (textOf (respace [] (stretches.map f)))
      = textOf (respace [] (stretches.map f)) := by
    refine normalizeNewlines_eq_self fun c hc => ?_
    rcases mem_respace hc with rfl | hc | hc
    · rfl
    · cases hc
    · obtain ⟨b, hb, hc⟩ := List.mem_flatMap.1 hc
      obtain ⟨a, ha, rfl⟩ := List.mem_map.1 hb
      exact hnormal a ha c hc
  have hread : ∀ b ∈ respace [] (stretches.map f), b.Reads := by
    refine reads_respace (fun b hb => ?_) (List.forall_mem_nil _)
    obtain ⟨a, ha, rfl⟩ := List.mem_map.1 hb
    exact hreads a ha
  obtain ⟨hchained', -⟩ := chained_respace htail hquote hf hchained (List.forall_mem_nil _)
  rw [hself, inkOf, onlyOf_ofText (fun _ => rfl), ofText_textOf hread hchained', onlyLexeme_respace,
    List.flatMap_map]
  simp only [hlexeme]

/-! ## Stretches of a text -/

/-- Can each of the stretches be printed anew where it stands?  It stays when comments are
removed and lines are stripped, and its lexeme is printed as a text that says the same. -/
def arePrintable : List Stretch → Bool
  | [] => true
  | a :: stretches =>
    (a.isSpace || a.isSturdy && a.lexeme.isPrintable (textOf stretches)) && arePrintable stretches

theorem arePrintable_append {stretches others : List Stretch}
    (h : arePrintable (stretches ++ others) = true) : arePrintable others = true := by
  induction stretches with
  | nil => exact h
  | cons a stretches ih => exact ih (Bool.and_eq_true_iff.1 h).2

theorem isSpace_or_isSturdy {stretches : List Stretch} (h : arePrintable stretches = true) :
    ∀ a ∈ stretches, a.isSpace = true ∨ a.isSturdy = true := by
  intro a ha
  obtain ⟨init, more, rfl⟩ := List.append_of_mem ha
  have hself := (Bool.and_eq_true_iff.1 (arePrintable_append h)).1
  rw [Bool.or_eq_true, Bool.and_eq_true] at hself
  exact hself.imp_right And.left

/-- Only ranges could end elsewhere, faults apart. -/
theorem exists_range {lexeme : Lexeme} (hclean : lexeme.isClean = true)
    (h : ¬ lexeme.isSteady = true) :
    ∃ first last, lexeme = .leaf (.unicodeRange first last) := by
  cases lexeme with
  | leaf l =>
    cases l with
    | unicodeRange first last => exact ⟨first, last, rfl⟩
    | badString => cases hclean
    | badUrl => cases hclean
    | _ => exact absurd rfl h
  | _ => exact absurd rfl h

section Among

variable {t : Text} {before stretches after : List Stretch}
  (h : ofText t = before ++ (stretches ++ after))
  (hclean : ∀ a ∈ stretches, a.lexeme.isClean = true) (hprintable : arePrintable stretches = true)
  (hescape : '\\' ∉ textOf stretches)

include h hclean hprintable hescape

theorem chainedBefore_of_ofText (htail : glimpse (textOf after) = []) :
    chainedBefore (textOf after) stretches = true := by
  induction stretches generalizing before with
  | nil => rfl
  | cons a stretches ih =>
    obtain ⟨hself, hmore⟩ := Bool.and_eq_true_iff.1 hprintable
    obtain ⟨hcleana, hcleanmore⟩ := List.forall_mem_cons.1 hclean
    rw [textOf_cons, List.mem_append, not_or] at hescape
    rw [List.cons_append] at h
    obtain ⟨c, u, htext, hnext⟩ := next_of_ofText h
    rw [textOf_append] at hnext
    rw [chainedBefore, ih (h.trans (List.append_cons ..)) hcleanmore hmore hescape.2, Bool.and_true]
    by_cases hsteady : a.lexeme.isSteady = true
    · rw [htext]
      exact Lexeme.stops_of_next hnext hsteady
    · obtain ⟨first, last, hrange⟩ := exists_range hcleana hsteady
      have hspace : a.isSpace = false := by rw [isSpace, hrange]
      rw [hspace, Bool.false_or, Bool.and_eq_true, hrange] at hself
      have hends : endsRange (textOf stretches) = true := hself.2
      -- what could go on with a range would stand among the stretches
      have hglimpse : glimpse (textOf stretches ++ textOf after)
          = glimpse (textOf stretches ++ []) :=
        Lexeme.glimpse_append htail fun hmem => absurd hmem hescape.2
      rw [List.append_nil] at hglimpse
      rw [hrange, Lexeme.stops, eq_of_glimpse endsRange_glimpse hglimpse, hends]

variable (hafter : after ≠ []) (hnormal : ∀ c ∈ t, isNormal c = true)
  (hmark : hasCommentMark (textOf stretches) = false)

include hafter hnormal hmark

/-- **The stretches of a text without a backslash can be printed anew.** -/
theorem keeps_of_mem : ∀ a ∈ stretches, a.Keeps := by
  intro a ha
  have hreads := reads_of_mem hafter h a ha
  have hwell : a.lexeme.WellFormed := (Lexeme.wellFormed_ofText hnormal).1 a (by rw [h]; simp [ha])
  obtain ⟨init, more, rfl⟩ := List.append_of_mem ha
  rw [textOf_append, textOf_cons] at hescape hmark
  have hmark := (hasCommentMark_append (hasCommentMark_append hmark).2).1
  have hself := (Bool.and_eq_true_iff.1 (arePrintable_append hprintable)).1
  obtain ⟨c, u, rest, htext, hnext⟩ := exists_next a (t := t) (by rw [h]; simp)
  cases hspace : a.isSpace with
  | true => exact keeps_of_isSpace hreads hspace
  | false =>
    rw [hspace, Bool.false_or, Bool.and_eq_true] at hself
    obtain ⟨text, lexeme⟩ := a
    obtain rfl : text = c :: u := htext
    refine .word (reprints_of_next hnext (fun hmem => hescape ?_) hmark
      (fun d hd => hnormal d ?_) hwell (hclean _ ha) hspace hreads hself.1 hself.2)
    · exact List.mem_append_right _ (List.mem_append_left _ hmem)
    · rw [← textOf_ofText t, h]
      simp only [textOf_append, textOf_cons, List.mem_append]
      exact Or.inr (Or.inl (Or.inr (Or.inl hd)))

/-- **Printed anew they say what they said**, whatever becomes of the whitespace. -/
theorem inkOf_reprint (htail : glimpse (textOf after) = [])
    (hquote : Lexeme.startsQuote ((textOf after).dropWhile Component.isSpace) = false) :
    inkOf (Component.ofText (normalizeNewlines (textOf (respace [] (stretches.map reprint)))))
      = inkOf (Component.ofText (normalizeNewlines (textOf (respace [] stretches)))) := by
  have hkeeps := keeps_of_mem h hclean hprintable hescape hafter hnormal hmark
  have hchained := chainedBefore_of_ofText h hclean hprintable hescape htail
  have hwell := (Lexeme.wellFormed_ofText hnormal).1
  rw [h] at hwell
  have hreads := reads_of_mem hafter h
  have hprinted := inkOf_respace htail hquote hchained (fun a ha => (hkeeps a ha).becomes)
    (fun _ => rfl) (fun a ha => (hkeeps a ha).reads)
    (fun a ha => Lexeme.isNormal_print (hwell a (by simp [ha])) (hclean a ha))
  have hself := inkOf_respace htail hquote hchained (fun a ha => (hkeeps a ha).becomes_self)
    (fun _ => rfl) hreads fun a ha c hc => ?_
  · rw [List.map_id'] at hself
    rw [hprinted, hself]
  · refine hnormal c ?_
    rw [← textOf_ofText t, h]
    exact List.mem_flatMap.2 ⟨a, by simp [ha], hc⟩

end Among

/-! ## Whitespace and comments -/

/-- Is it whitespace or a comment? -/
def isFiller (a : Stretch) : Bool :=
  a.isSpace || a.isComment

/-- What stands before a lexeme sees nothing of whitespace and comments. -/
theorem glimpse_filler {trail : List Stretch} (hreads : ∀ a ∈ trail, a.Reads)
    (hfiller : ∀ a ∈ trail, a.isFiller = true) (z : Text) : glimpse (textOf trail ++ ';' :: z) = []
      ∧ Lexeme.startsQuote ((textOf trail ++ ';' :: z).dropWhile Component.isSpace) = false := by
  induction trail with
  | nil => exact ⟨rfl, rfl⟩
  | cons a trail ih =>
    obtain ⟨ha, hrest⟩ := List.forall_mem_cons.1 hreads
    obtain ⟨hself, hmore⟩ := List.forall_mem_cons.1 hfiller
    obtain ⟨hglimpse, hquote⟩ := ih hrest hmore
    rw [textOf_cons, List.append_assoc]
    rw [isFiller, Bool.or_eq_true] at hself
    rcases hself with hspace | hcomment
    · have hchars := (ha.whitespace hspace).2
      rw [List.dropWhile_append_of_pos hchars]
      refine ⟨?_, hquote⟩
      by_cases hne : a.text = []
      · rw [hne]
        exact hglimpse
      · exact glimpse_spaces hne hchars _
    · obtain ⟨text, lexeme⟩ := a
      cases lexeme with
      | comment inside =>
        obtain ⟨c, u, rfl, hnext⟩ := ha ['*'] rfl
        obtain ⟨rfl, -⟩ := Lexeme.next_eq_comment hnext
        exact ⟨rfl, rfl⟩
      | _ => cases hcomment

/-- Without comments no more than whitespace is left of fillers. -/
theorem filter_filler {body trail : List Stretch} (hbody : ∀ a ∈ body, a.isComment = false)
    (htrail : ∀ a ∈ trail, a.isFiller = true) : ∃ spaces,
    (body ++ trail).filter (fun a => !a.isComment) = body ++ spaces
      ∧ ∀ a ∈ spaces, a ∈ trail ∧ a.isSpace = true := by
  refine ⟨trail.filter fun a => !a.isComment, ?_, fun a ha => ?_⟩
  · rw [List.filter_append, List.filter_eq_self.2 fun a ha => by rw [hbody a ha, Bool.not_false]]
  · obtain ⟨hmem, hnot⟩ := List.mem_filter.1 ha
    have hfiller := htrail a hmem
    rw [Bool.not_eq_true'] at hnot
    rw [isFiller, hnot, Bool.or_false] at hfiller
    exact ⟨hmem, hfiller⟩

end Stretch

/-! ## The values -/

theorem Lexeme.newlinesFollow_of_not_mem {list : List Lexeme} (h : literal ['\\'] ∉ list) :
    newlinesFollow list = true := by
  induction list with
  | nil => rfl
  | cons a list ih =>
    rw [List.mem_cons, not_or] at h
    rw [newlinesFollow, ih h.2, bne_iff_ne.2 (Ne.symm h.1)]
    rfl

namespace Source

/-- The value of a directive that a semicolon ends is cut out of the source. -/
theorem directiveValue_ended {path : Option Text} {t : Text} {lead body trail final : List Stretch}
    (h : Stretch.ofText (ofText path t).text = lead ++ (body ++ trail ++ final))
    (hfinal : final ≠ [])
    (hbody : ∀ a ∈ body, a.isComment = false ∧ (a.isSpace = true ∨ a.isSturdy = true))
    (htrail : ∀ a ∈ trail, a.isFiller = true) {first : Component} (rest : List Component)
    (hposition : first.position = Position.behind (Stretch.textOf lead))
    (hcons : ∃ a more, body ++ trail = a :: more ∧ a.isComment = false ∧ a.isSpace = false) :
    (ofText path t).directiveValue (first :: rest)
        (some (Position.behind (Stretch.textOf lead ++ Stretch.textOf (body ++ trail))))
      = Stretch.textOf (Stretch.respace [] body) := by
  have hsource : (ofText path t).text
      = Stretch.textOf lead ++ Stretch.textOf (body ++ trail) ++ Stretch.textOf final := by
    rw [← Stretch.textOf_ofText (ofText path t).text, h, Stretch.textOf_append,
      Stretch.textOf_append (body ++ trail), List.append_assoc]
  have hsturdy : ∀ a ∈ body ++ trail, a.isComment = true ∨ a.isSpace = true
      ∨ a.isSturdy = true := by
    intro a ha
    rcases List.mem_append.1 ha with ha | ha
    · exact Or.inr (hbody a ha).2
    · have hfiller := htrail a ha
      rw [Stretch.isFiller, Bool.or_eq_true] at hfiller
      exact hfiller.symm.imp_right Or.inl
  obtain ⟨a, more, heq, hcomment, hspace⟩ := hcons
  have hstored := Stretch.intercalate_removeComments hfinal h hsturdy heq hcomment hspace
  obtain ⟨spaces, hfilter, hspaces⟩ := Stretch.filter_filler (fun a ha => (hbody a ha).1) htrail
  rw [Stretch.respaced, hfilter,
    Stretch.respace_append_spaces fun a ha => (hspaces a ha).2] at hstored
  rw [← hstored, directiveValue, Source.textOf]
  simp only [hposition]
  rw [slice_after hsource]

/-- The text of components that nothing ends is printed anew, without the comments that
printing puts between them. -/
theorem textOf_printed (source : Source) {components : List Component} {stretches : List Stretch}
    (hfault : areFaultless components = true)
    (hsequence : sequence components = stretches.map Stretch.lexeme)
    (hkeeps : ∀ a ∈ stretches, a.Keeps)
    (hmark : hasCommentMark (Stretch.textOf stretches) = false) :
    source.textOf components none
      = Text.strip (Stretch.textOf (stretches.map Stretch.reprint)) := by
  have hbackslash : Lexeme.literal ['\\'] ∉ sequence components := by
    rw [hsequence]
    intro hmem
    obtain ⟨a, ha, hlexeme⟩ := List.mem_map.1 hmem
    cases hkeeps a ha with
    | space _ hspace _ _ _ =>
      rw [Stretch.isSpace, hlexeme] at hspace
      cases hspace
    | word hword => exact hword.kin.lexeme_ne hlexeme
  have hnewlines : Lexeme.newlinesFollow (sequence components ++ []) = true := by
    rw [List.append_nil]
    exact Lexeme.newlinesFollow_of_not_mem hbackslash
  have hprint := textOf_written_sequence hfault hnewlines (newlineComes_none _) rfl
  rw [List.append_nil, Stretch.written, Stretch.textOf_nil, List.append_nil, hsequence] at hprint
  have hremove := Stretch.removeComments_written hkeeps hmark none
  rw [hprint] at hremove
  rw [← hremove]
  cases components <;> rfl

/-- The value of a directive that nothing ends is printed anew. -/
theorem directiveValue_printed (source : Source) {components : List Component}
    {stretches : List Stretch} (hfault : areFaultless components = true)
    (hsequence : sequence components = stretches.map Stretch.lexeme)
    (hkeeps : ∀ a ∈ stretches, a.Keeps) (hmark : hasCommentMark (Stretch.textOf stretches) = false)
    (hfirst : stretches.head?.any (fun a => !a.isSpace) = true) :
    source.directiveValue components none
      = Stretch.textOf (Stretch.respace [] (stretches.map Stretch.reprint)) := by
  rw [directiveValue, textOf_printed source hfault hsequence hkeeps hmark]
  -- the first stretch is a word, which starts the first line
  cases stretches with
  | nil => cases hfirst
  | cons a stretches =>
    have hspace : a.isSpace = false := by simpa using hfirst
    obtain ⟨ha, hrest⟩ := List.forall_mem_cons.1 hkeeps
    have hword := ha.reprints hspace
    obtain ⟨htrimmed, hline⟩ := Stretch.trimmed_of_isSturdy hword.sturdy
    have hmore : ∀ b ∈ stretches.map Stretch.reprint,
        (b.isSpace = true → ∀ c ∈ b.text, Component.isSpace c = true)
          ∧ (b.isSpace = false → b.isSturdy = true) := by
      intro b hb
      obtain ⟨x, hx, rfl⟩ := List.mem_map.1 hb
      exact (hrest x hx).blank_or_sturdy
    have hlines := @Stretch.intercalate_strippedLines _ hmore _ [] htrimmed hline
      (List.forall_mem_nil _)
    rw [List.map_cons, Stretch.textOf_cons, Stretch.respace,
      if_neg (by simp [hword.kin.isSpace_eq_false.1]), if_pos rfl, Stretch.textOf_cons]
    exact hlines

end Source

section LastStatement

variable {before after : Text} {first : Component} {rest : List Component}
  {stretches : List Stretch}
  (h : LastStatement before after (first :: rest) stretches) (path : Option Text)

include h

/-- The stretches of the statement in the text with the semicolon, and their lexemes. -/
theorem LastStatement.exists_stretches (hfault : first.isFaultless = true) : ∃ lead final,
    Stretch.ofText (Source.ofText path (before ++ ';' :: '}' :: after)).text
        = lead ++ (stretches ++ final)
      ∧ (∃ z, Stretch.textOf final = ';' :: z)
      ∧ first.position = Position.behind (Stretch.textOf lead)
      ∧ normalizeNewlines before = Stretch.textOf lead ++ Stretch.textOf stretches
      ∧ (∃ spaces, (∀ a ∈ spaces, a.isGap = true)
        ∧ (stretches.filter fun a => !a.isComment).map Stretch.lexeme
          = sequence (first :: rest) ++ spaces)
      ∧ ∃ a more, stretches = a :: more ∧ a.isComment = false ∧ a.isSpace = false := by
  have hclause := h.mem_clauses path
  obtain ⟨before', stretches', after', spaces, hsplit, hafter, hstart, hend, hspaces, hkept,
    hcons⟩ := NestedSheet.exists_stretches hclause rfl rfl hfault
  obtain @⟨lead, trail, frame, frames, inside, hstretches, htext, hfirst, -, -, -⟩ := h
  have hposition := hfirst first rfl
  have hbracket : Stretch.ofText (normalizeNewlines before ++ '}' :: normalizeNewlines after)
      = lead ++ stretches ++ ⟨['}'], .closing .curly⟩ :: trail :=
    text_bracket path before after ▸ hstretches
  have hsource : Stretch.ofText (Source.ofText path (before ++ ';' :: '}' :: after)).text
      = lead ++ (stretches
        ++ ⟨[';'], Lexeme.literal [';']⟩ :: ⟨['}'], .closing .curly⟩ :: trail) := by
    rw [text_semicolon, Stretch.ofText_exchange hbracket htext, List.append_assoc]
  -- both are the stretches between the same positions
  obtain rfl : stretches' = stretches := by
    have hbetween := Source.stretches_eq hsplit
    have hbetween' := Source.stretches_eq hsource
    rw [← hstart, ← hend] at hbetween
    rw [← Stretch.textOf_append, htext, ← hposition] at hbetween'
    exact hbetween.symm.trans hbetween'
  refine ⟨lead, _, hsource, ⟨_, rfl⟩, hposition, ?_, ⟨spaces.map Prod.snd, ?_, ?_⟩, hcons⟩
  · rw [← htext, Stretch.textOf_append]
  · intro a ha
    obtain ⟨x, hx, rfl⟩ := List.mem_map.1 ha
    obtain ⟨text, hspace⟩ := hspaces x hx
    rw [hspace]
    rfl
  · rw [← Stretch.map_snd_kept (Stretch.reads_of_mem hafter hsplit) first.position, hkept,
      List.map_append]
    rfl

end LastStatement

namespace Stretch

theorem Reads.hasCommentMark {a : Stretch} (h : a.Reads) (ha : a.isComment = true) :
    hasCommentMark a.text = true := by
  obtain ⟨text, lexeme⟩ := a
  cases lexeme with
  | comment inside =>
    obtain ⟨c, u, rfl, hnext⟩ := h ['*'] rfl
    obtain ⟨rfl, ds, hds, hread⟩ := Lexeme.next_eq_comment hnext
    cases u with
    | nil =>
      obtain ⟨-, rfl⟩ := List.cons.inj hds
      cases hread
    | cons d u =>
      obtain ⟨rfl, -⟩ := List.cons.inj hds
      rfl
  | _ => cases ha

/-- There is no comment where a text has no mark of one. -/
theorem isComment_eq_false {stretches : List Stretch} (hreads : ∀ a ∈ stretches, a.Reads)
    (hmark : NestedSheet.hasCommentMark (textOf stretches) = false) :
    ∀ a ∈ stretches, a.isComment = false := by
  intro a ha
  rw [Bool.eq_false_iff]
  intro hcomment
  have hself := (hreads a ha).hasCommentMark hcomment
  obtain ⟨init, more, rfl⟩ := List.append_of_mem ha
  rw [textOf_append, textOf_cons] at hmark
  rw [(hasCommentMark_append (hasCommentMark_append hmark).2).1] at hself
  cases hself

/-- The lexemes of faultless components are no faults. -/
theorem isClean_of_sequence {stretches : List Stretch} {components : List Component}
    {spaces : List Lexeme} (hfault : areFaultless components = true)
    (hspaces : ∀ a ∈ spaces, a.isGap = true)
    (h : stretches.map Stretch.lexeme = sequence components ++ spaces) :
    ∀ a ∈ stretches, a.lexeme.isClean = true := by
  intro a ha
  have hmem : a.lexeme ∈ sequence components ++ spaces := h ▸ List.mem_map_of_mem ha
  rcases List.mem_append.1 hmem with hmem | hmem
  · exact isClean_sequence hfault _ hmem
  · obtain ⟨t, ht⟩ := Lexeme.exists_whitespace (hspaces _ hmem)
    rw [ht]
    rfl

/-- The first of the stretches are those of the components, and no more than whitespace is
behind them. -/
theorem exists_printed {body trail : List Stretch} {components : List Component}
    {spaces : List Lexeme}
    (hlexemes : (body ++ trail).map Stretch.lexeme = sequence components ++ spaces)
    (hspaces : ∀ a ∈ spaces, a.isGap = true) (htrail : ∀ a ∈ trail, a.isSpace = true)
    (hkeeps : ∀ a ∈ body ++ trail, a.Keeps)
    (hmark : NestedSheet.hasCommentMark (textOf body) = false)
    (hcons : ∃ a more, body ++ trail = a :: more ∧ a.isSpace = false) : ∃ stretches,
      sequence components = stretches.map Stretch.lexeme ∧ (∀ a ∈ stretches, a.Keeps)
        ∧ NestedSheet.hasCommentMark (textOf stretches) = false
        ∧ stretches.head?.any (fun a => !a.isSpace) = true
        ∧ respace [] (stretches.map reprint) = respace [] (body.map reprint) := by
  -- the lexemes say where the stretches are divided
  obtain ⟨stretches, others, hsplit, hstretches, hothers⟩ := List.map_eq_append_iff.1 hlexemes
  have hothers' : ∀ a ∈ others, a.isSpace = true := by
    intro a ha
    refine hspaces a.lexeme ?_
    rw [← hothers]
    exact List.mem_map.2 ⟨a, ha, rfl⟩
  have hreprint : ∀ {list : List Stretch}, (∀ a ∈ list, a.isSpace = true) →
      ∀ a ∈ list.map reprint, a.isSpace = true := by
    intro list hlist b hb
    obtain ⟨a, ha, rfl⟩ := List.mem_map.1 hb
    exact hlist a ha
  refine ⟨stretches, hstretches.symm, fun a ha => hkeeps a (by rw [hsplit]; simp [ha]), ?_, ?_, ?_⟩
  · have hall : NestedSheet.hasCommentMark (textOf (body ++ trail)) = false := by
      rw [textOf_append]
      refine hasCommentMark_spaces hmark fun c hc => ?_
      obtain ⟨a, ha, hc⟩ := List.mem_flatMap.1 hc
      cases hkeeps a (List.mem_append_right _ ha) with
      | space _ _ _ _ hchars => exact hchars c hc
      | word hword =>
        have hspace := htrail a ha
        rw [hword.kin.isSpace_eq_false.2] at hspace
        cases hspace
    rw [hsplit, textOf_append] at hall
    exact (hasCommentMark_append hall).1
  · -- the first stretch is no whitespace, so it is not one of the others
    obtain ⟨a, more, heq, hspace⟩ := hcons
    rw [heq] at hsplit
    cases stretches with
    | nil =>
      have ha := hothers' a (by rw [← List.nil_append others, ← hsplit]; simp)
      rw [ha] at hspace
      cases hspace
    | cons b stretches =>
      obtain ⟨rfl, -⟩ := List.cons.inj hsplit
      simp [hspace]
  · -- whitespace at the end is dropped on both sides
    have hmap := congrArg (respace [] ∘ List.map reprint) hsplit
    simpa only [Function.comp, List.map_append, respace_append_spaces (hreprint htrail),
      respace_append_spaces (hreprint hothers')] using hmap.symm

end Stretch

/-- **The semicolon behind the last statement of a block is optional**: with it the stylesheet
is the same but for the value of the directive, and both values say the same.  No backslash and
no comment may stand in the statement, but for comments behind it, and each of its lexemes has
to be one that can be printed anew where it stands. -/
theorem semicolon_optional {path : Option Text} {before after : Text} {first : Component}
    {rest : List Component} {body trail : List Stretch}
    (hlast : LastStatement before after (first :: rest) (body ++ trail))
    (hkeyword : first.isAtKeyword = true) (hfault : areFaultless (first :: rest) = true)
    (hescape : '\\' ∉ Stretch.textOf body) (hcomment : hasCommentMark (Stretch.textOf body) = false)
    (htrail : ∀ a ∈ trail, a.isFiller = true) (hprintable : Stretch.arePrintable body = true)
    {sheet : Sheet} (hread : Sheet.read path (before ++ '}' :: after) = .ok sheet) :
    ∃ sheet' d d', Sheet.read path (before ++ ';' :: '}' :: after) = .ok sheet'
      ∧ sheet'.path = sheet.path ∧ Node.Exchanged d d' sheet.children sheet'.children
      ∧ d'.origin = d.origin ∧ inkOf (Component.ofText (normalizeNewlines d'.value))
        = inkOf (Component.ofText (normalizeNewlines d.value)) := by
  obtain ⟨sheet', hread', hpath, hexchanged⟩ := hlast.read path hkeyword hread
  refine ⟨sheet', _, _, hread', hpath, hexchanged, rfl, ?_⟩
  obtain ⟨lead, final, hsplit, ⟨z, hz⟩, hposition, hbefore, ⟨gaps, hgaps, hlexemes⟩, hcons⟩ :=
    hlast.exists_stretches path (areFaultless_iff.1 hfault first List.mem_cons_self)
  have hfinal : final ≠ [] := by
    rintro rfl
    cases hz
  have hreads := Stretch.reads_of_mem hfinal hsplit
  have hbody := Stretch.isComment_eq_false
    (fun a ha => hreads a (List.mem_append_left trail ha)) hcomment
  -- with the semicolon the value is cut out of the source
  have hended := Source.directiveValue_ended hsplit hfinal
    (fun a ha => ⟨hbody a ha, Stretch.isSpace_or_isSturdy hprintable a ha⟩) htrail rest
    hposition hcons
  rw [← hbefore] at hended
  -- and without it it is printed
  obtain ⟨spaces, hfilter, hspaces⟩ := Stretch.filter_filler hbody htrail
  rw [hfilter] at hlexemes
  have hclean : ∀ a ∈ body, a.lexeme.isClean = true := fun a ha =>
    Stretch.isClean_of_sequence hfault hgaps hlexemes a (List.mem_append_left spaces ha)
  have hstretches : Stretch.ofText (Source.ofText path (before ++ ';' :: '}' :: after)).text
      = lead ++ (body ++ (trail ++ final)) := by rw [hsplit, List.append_assoc]
  have hnormal : ∀ c ∈ (Source.ofText path (before ++ ';' :: '}' :: after)).text,
      isNormal c = true :=
    isNormal_normalizeNewlines
  have hnonempty := List.append_ne_nil_of_right_ne_nil trail hfinal
  have hkeeps : ∀ a ∈ body ++ spaces, a.Keeps := List.forall_mem_append.2
    ⟨Stretch.keeps_of_mem hstretches hclean hprintable hescape hnonempty hnormal hcomment,
      fun a ha => Stretch.keeps_of_isSpace
        (hreads a (List.mem_append_right body (hspaces a ha).1)) (hspaces a ha).2⟩
  have hfirst : ∃ a more, body ++ spaces = a :: more ∧ a.isSpace = false := by
    obtain ⟨a, more, heq, hnot, ha⟩ := hcons
    rw [heq, List.filter_cons_of_pos (by rw [hnot]; rfl)] at hfilter
    exact ⟨a, _, hfilter.symm, ha⟩
  obtain ⟨stretches, hsequence, hkeeps', hmark, hhead, hprinted⟩ := Stretch.exists_printed
    hlexemes hgaps (fun a ha => (hspaces a ha).2) hkeeps hcomment hfirst
  have hvalue := Source.directiveValue_printed (Source.ofText path (before ++ '}' :: after))
    hfault hsequence hkeeps' hmark hhead
  rw [hprinted] at hvalue
  -- both say what the stretches say
  obtain ⟨hglimpse, hquote⟩ := Stretch.glimpse_filler
    (fun a ha => hreads a (List.mem_append_right body ha)) htrail z
  rw [← hz, ← Stretch.textOf_append] at hglimpse hquote
  simp only [hended, hvalue]
  exact (Stretch.inkOf_reprint hstretches hclean hprintable hescape hnonempty hnormal hcomment
    hglimpse hquote).symm

/-- A directive with a string, and with a comment behind it. -/
theorem semicolon_optional_quoted :
    ∃ sheet sheet' d d', Sheet.read none "a\x7b@x 'b'/*c*/\x7d".toList = .ok sheet
      ∧ Sheet.read none "a\x7b@x 'b'/*c*/;\x7d".toList = .ok sheet'
      ∧ sheet'.path = sheet.path ∧ Node.Exchanged d d' sheet.children sheet'.children
      ∧ d'.origin = d.origin ∧ inkOf (Component.ofText (normalizeNewlines d'.value))
        = inkOf (Component.ofText (normalizeNewlines d.value)) := by
  have hread : Sheet.read none "a\x7b@x 'b'/*c*/\x7d".toList = .ok { children :=
      [.rule { lines := [['a']], origin := ⟨some 1, none⟩ }
        [.directive { value := "@x \"b\"".toList, origin := ⟨some 1, none⟩ }]] } := by decide +kernel
  have hlast : LastStatement "a\x7b@x 'b'/*c*/".toList [] [.leaf ⟨1, 3⟩ (.atKeyword ['x']),
      .leaf ⟨1, 5⟩ (.whitespace [' ']), .leaf ⟨1, 6⟩ (.string ['b'] true)]
      ([⟨['@', 'x'], .leaf (.atKeyword ['x'])⟩, Stretch.space [' '],
        ⟨"'b'".toList, .leaf (.string ['b'] true)⟩] ++ [⟨"/*c*/".toList, .comment ['c']⟩]) := by
    refine @LastStatement.intro _ _ _ _
      [⟨['a'], .leaf (.ident ['a'])⟩, ⟨['\x7b'], .opening .curly⟩] []
      ⟨⟨1, 2⟩, .block .curly, [.leaf {} (.ident ['a'])]⟩ [] _ ?_ ?_ ?_ rfl ?_ rfl
    · decide +kernel
    · decide +kernel
    · exact fun first hfirst => by cases hfirst; rfl
    · exact List.forall_mem_singleton.2 rfl
  obtain ⟨sheet', d, d', hread', h⟩ := semicolon_optional hlast rfl (by decide +kernel)
    (by decide +kernel) (by decide +kernel) (List.forall_mem_singleton.2 rfl)
    (by decide +kernel) hread
  exact ⟨_, sheet', d, d', hread, hread', h⟩

/-- A range with question marks is printed with a hyphen, and then takes a digit that it did
not take: `U+4?5` becomes `U+40-4F5`. -/
theorem semicolon_not_optional :
    ∃ sheet sheet' r d d' first rest body, Sheet.read none "a\x7b@x U+4?5\x7d".toList = .ok sheet
      ∧ Sheet.read none "a\x7b@x U+4?5;\x7d".toList = .ok sheet'
      ∧ LastStatement "a\x7b@x U+4?5".toList [] (first :: rest) body ∧ first.isAtKeyword = true
      ∧ areFaultless (first :: rest) = true ∧ '\\' ∉ Stretch.textOf body
      ∧ hasCommentMark (Stretch.textOf body) = false
      ∧ sheet.children = [.rule r [.directive d]] ∧ sheet'.children = [.rule r [.directive d']]
      ∧ d.value = "@x U+40-4F5".toList ∧ d'.value = "@x U+4?5".toList
      ∧ inkOf (Component.ofText (normalizeNewlines d'.value))
        ≠ inkOf (Component.ofText (normalizeNewlines d.value)) := by
  have hread : Sheet.read none "a\x7b@x U+4?5\x7d".toList = .ok { children :=
      [.rule { lines := [['a']], origin := ⟨some 1, none⟩ }
        [.directive { value := "@x U+40-4F5".toList, origin := ⟨some 1, none⟩ }]] } := by decide +kernel
  have hread' : Sheet.read none "a\x7b@x U+4?5;\x7d".toList = .ok { children :=
      [.rule { lines := [['a']], origin := ⟨some 1, none⟩ }
        [.directive { value := "@x U+4?5".toList, origin := ⟨some 1, none⟩ }]] } := by decide +kernel
  have hlast : LastStatement "a\x7b@x U+4?5".toList [] [.leaf ⟨1, 3⟩ (.atKeyword ['x']),
      .leaf ⟨1, 5⟩ (.whitespace [' ']), .leaf ⟨1, 6⟩ (.unicodeRange 0x40 0x4F),
      .leaf ⟨1, 10⟩ (.number ['5'])]
      [⟨['@', 'x'], .leaf (.atKeyword ['x'])⟩, Stretch.space [' '],
        ⟨"U+4?".toList, .leaf (.unicodeRange 0x40 0x4F)⟩, ⟨['5'], .leaf (.number ['5'])⟩] := by
    refine @LastStatement.intro _ _ _ _
      [⟨['a'], .leaf (.ident ['a'])⟩, ⟨['\x7b'], .opening .curly⟩] []
      ⟨⟨1, 2⟩, .block .curly, [.leaf {} (.ident ['a'])]⟩ [] _ ?_ ?_ ?_ rfl ?_ rfl
    · decide +kernel
    · decide +kernel
    · exact fun first hfirst => by cases hfirst; rfl
    · exact List.forall_mem_singleton.2 rfl
  exact ⟨_, _, _, _, _, _, _, _, hread, hread', hlast, rfl, by decide +kernel, by decide +kernel,
    by decide +kernel, rfl, rfl, rfl, rfl, by decide +kernel⟩

end NestedSheet
