import NestedSheet.Proofs.Preludes
import NestedSheet.Proofs.Verbatim

/-!
# Stretches that are printed anew

A stretch can be replaced by another one with the same lexeme, if the two look alike to what
stands before them (`Stretch.Kin`).  Then stretches that end before one another still do so,
whatever becomes of the whitespace between them (`Stretch.chained_respace`).

A stretch without a backslash can be replaced by its lexeme printed anew
(`Stretch.reprints_of_next`): either its text stays, or it is a string that still starts with
a quote, or a URL or a range that still starts with its letter.  `Lexeme.isPrintable` leaves out
the units that look like an exponent and the ranges that the text behind them would go on with.
-/

namespace NestedSheet

open Component

/-! ## Texts without comments -/

/-- What stands in a text without comments has none. -/
theorem hasCommentMark_append {t u : Text} (h : hasCommentMark (t ++ u) = false) :
    hasCommentMark t = false ∧ hasCommentMark u = false := by
  induction t with
  | nil => exact ⟨rfl, h⟩
  | cons c t ih =>
    rw [List.cons_append, hasCommentMark, Bool.or_eq_false_iff] at h
    obtain ⟨ht, hu⟩ := ih h.2
    refine ⟨?_, hu⟩
    rw [hasCommentMark, ht, Bool.or_false]
    cases t with
    | nil => exact Bool.and_false _
    | cons d ds => exact h.1

theorem hasCommentMark_concat {c : Char} (hc : c ≠ '*') (t : Text) :
    hasCommentMark (t ++ [c]) = hasCommentMark t := by
  induction t with
  | nil => simp [hasCommentMark]
  | cons d t ih =>
    rw [List.cons_append, hasCommentMark, hasCommentMark, ih]
    cases t with
    | nil => simp [hc]
    | cons e t => rfl

theorem isBlank_of_isHex {c : Char} (h : isHex c = true) : Text.isBlank c = false := by
  have hc : c.val.toNat = c.toNat := rfl
  have hbound : 0x30 ≤ c.toNat ∧ c.toNat ≤ 0x66 := by
    simp only [isHex, Char.isDigit, Bool.or_eq_true, Bool.and_eq_true, decide_eq_true_eq, ge_iff_le,
      Char.le_def, UInt32.le_iff_toNat_le, hc] at h
    rcases h with (h | h) | h
    · exact ⟨h.1, h.2.trans (by decide)⟩
    · exact ⟨le_trans (by decide) h.1, h.2⟩
    · exact ⟨le_trans (by decide) h.1, h.2.trans (by decide)⟩
  simp only [Text.isBlank, Bool.or_eq_false_iff, Bool.and_eq_false_iff, decide_eq_false_iff_not,
    beq_eq_false_iff_ne]
  omega

namespace Stretch

/-! ## Stretches that are printed anew -/

/-- The stretch with its lexeme printed anew. -/
def reprint (a : Stretch) : Stretch :=
  ⟨a.lexeme.print, a.lexeme⟩

/-- Do the characters look alike to what stands before them?  Quotes do, and so do the
letters that URLs and ranges start with. -/
def lookAlike (c d : Char) : Bool :=
  Text.isQuote c && Text.isQuote d || (c == 'u' || c == 'U') && (d == 'u' || d == 'U')

/-- Two stretches with one lexeme that can stand for one another. -/
inductive Kin : Stretch → Stretch → Prop
  | same {a : Stretch} {c : Char} {cs : Text} (htext : a.text = c :: cs)
    (hc : Component.isSpace c = false)
    (hescape : '\\' ∉ a.text) (hspace : a.lexeme.isGap = false)
    (hmark : a.lexeme ≠ .literal ['\\']) :
    Kin a a
  | start {lexeme : Lexeme} {c d : Char} {cs ds : Text} (h : lookAlike c d = true)
    (hstops : ∀ t t', Lexeme.stops t lexeme = Lexeme.stops t' lexeme)
    (hspace : lexeme.isGap = false)
    (hmark : lexeme ≠ .literal ['\\']) : Kin ⟨c :: cs, lexeme⟩ ⟨d :: ds, lexeme⟩

theorem lookAlike_cases {c d : Char} (h : lookAlike c d = true) :
    (c = '"' ∨ c = '\'') ∧ (d = '"' ∨ d = '\'') ∨ (c = 'u' ∨ c = 'U') ∧ (d = 'u' ∨ d = 'U') := by
  simpa [lookAlike, Text.isQuote] using h

theorem glimpse_lookAlike {c d : Char} (h : lookAlike c d = true) (cs ds : Text) :
    glimpse (c :: cs) = glimpse (d :: ds) := by
  rcases lookAlike_cases h with ⟨rfl | rfl, rfl | rfl⟩ | ⟨rfl | rfl, rfl | rfl⟩ <;> rfl

section Kin

variable {a b : Stretch} (h : Kin a b)

include h

/-- Neither text starts with a space. -/
theorem Kin.exists_cons : ∃ c d cs ds, a.text = c :: cs ∧ b.text = d :: ds
    ∧ Component.isSpace c = false
    ∧ Component.isSpace d = false ∧ Text.isQuote c = Text.isQuote d
    ∧ (a = b ∨ lookAlike c d = true) := by
  cases h with
  | @same _ c cs htext hc _ _ _ => exact ⟨c, c, cs, cs, htext, htext, hc, hc, rfl, Or.inl rfl⟩
  | @start lexeme c d cs ds hlook =>
    refine ⟨c, d, cs, ds, rfl, rfl, ?_, ?_, ?_, Or.inr hlook⟩ <;>
      rcases lookAlike_cases hlook with ⟨rfl | rfl, rfl | rfl⟩ | ⟨rfl | rfl, rfl | rfl⟩ <;> rfl

theorem Kin.glimpse_eq {rest rest' : Text} (hrest : glimpse rest = glimpse rest') :
    glimpse (a.text ++ rest) = glimpse (b.text ++ rest') := by
  cases h with
  | same _ _ hescape => exact Lexeme.glimpse_append hrest fun hmem => absurd hmem hescape
  | start hlook => exact glimpse_lookAlike hlook _ _

theorem Kin.startsQuote_eq (rest rest' : Text) :
    Lexeme.startsQuote ((a.text ++ rest).dropWhile Component.isSpace)
      = Lexeme.startsQuote ((b.text ++ rest').dropWhile Component.isSpace) := by
  obtain ⟨c, d, cs, ds, ha, hb, hc, hd, hquote, -⟩ := h.exists_cons
  rw [ha, hb, List.cons_append, List.cons_append, List.dropWhile_cons_of_neg (by simp [hc]),
    List.dropWhile_cons_of_neg (by simp [hd])]
  exact hquote

/-- One of the stretches ends where the other one does, before a text that looks alike. -/
theorem Kin.stops {rest other : Text} (hglimpse : glimpse rest = glimpse other)
    (hquote : Lexeme.startsQuote (rest.dropWhile Component.isSpace) = true →
      Lexeme.startsQuote (other.dropWhile Component.isSpace) = true)
    (hstops : Lexeme.stops b.text b.lexeme rest = true) :
    Lexeme.stops a.text a.lexeme other = true := by
  have hnone : ∀ {t : Text}, '\\' ∉ t → b.lexeme.isGap = false → b.lexeme ≠ .literal ['\\'] →
      ¬ (b.lexeme.isGap = true ∨ b.lexeme = .literal ['\\'] ∨ '\\' ∈ t) := by
    intro t ht hspace hmark hmore
    rcases hmore with hgap | hliteral | hmem
    · rw [hspace] at hgap
      cases hgap
    · exact hmark hliteral
    · exact ht hmem
  cases h with
  | same _ _ hescape hspace hmark =>
    exact Lexeme.stops_of_glimpse hglimpse hquote (absurd · (hnone hescape hspace hmark)) hstops
  | start _ hsame hspace hmark =>
    rw [hsame _ []] at hstops ⊢
    exact Lexeme.stops_of_glimpse hglimpse hquote
      (absurd · (hnone List.not_mem_nil hspace hmark)) hstops

theorem Kin.refl_right : Kin b b := by
  cases h with
  | same htext hc hescape hspace hmark => exact .same htext hc hescape hspace hmark
  | start hlook hstops hspace hmark =>
    refine .start ?_ hstops hspace hmark
    rcases lookAlike_cases hlook with ⟨-, rfl | rfl⟩ | ⟨-, rfl | rfl⟩ <;> rfl

theorem Kin.lexeme_ne : b.lexeme ≠ .literal ['\\'] := by
  cases h with
  | same _ _ _ _ hmark => exact hmark
  | start _ _ _ hmark => exact hmark

theorem Kin.isSpace_eq_false : a.isSpace = false ∧ b.isSpace = false := by
  have hgap : ∀ {x : Stretch}, x.lexeme.isGap = false → x.isSpace = false := fun hx => hx
  cases h with
  | same _ _ _ hspace _ => exact ⟨hgap hspace, hgap hspace⟩
  | start _ _ hspace _ => exact ⟨hgap hspace, hgap hspace⟩

end Kin

/-! ## Whitespace between them -/

/-- Does every stretch end before those behind it, and the last one before the text? -/
def chainedBefore (tail : Text) : List Stretch → Bool
  | [] => true
  | a :: stretches =>
    Lexeme.stops a.text a.lexeme (textOf stretches ++ tail) && chainedBefore tail stretches

/-- Does the stretch stay, if it is whitespace, or become a kin of it? -/
def Becomes (a b : Stretch) : Prop :=
  (b = a ∧ a.isSpace = true ∧ ∀ c ∈ a.text, Component.isSpace c = true) ∨ Kin b a

theorem glimpse_spaces {gap : Text} (hne : gap ≠ []) (hgap : ∀ c ∈ gap, Component.isSpace c = true)
    (rest : Text) : glimpse (gap ++ rest) = [] := by
  obtain ⟨c, cs, rfl⟩ := List.exists_cons_of_ne_nil hne
  exact glimpse_stop (by simp [hgap c List.mem_cons_self]) _

theorem squeezed_spaces {gap : Text} (hne : gap ≠ [])
    (hgap : ∀ c ∈ gap, Component.isSpace c = true) :
    squeezed gap ≠ [] ∧ ∀ c ∈ squeezed gap, Component.isSpace c = true := by
  unfold squeezed
  split
  · exact ⟨nofun, List.all_eq_true.1 rfl⟩
  · exact ⟨hne, hgap⟩

section Respace

variable {f : Stretch → Stretch} {tail : Text} (htail : glimpse tail = [])
  (hquote : Lexeme.startsQuote (tail.dropWhile Component.isSpace) = false)

include htail hquote

/-- **Stretches that end before one another still do so** when the whitespace between them
is changed and others are put in their place. -/
theorem chained_respace {stretches : List Stretch} (hf : ∀ a ∈ stretches, Becomes a (f a))
    (hchained : chainedBefore tail stretches = true) {gap : Text}
    (hgap : ∀ c ∈ gap, Component.isSpace c = true) :
    chained (respace gap (stretches.map f)) = true
      ∧ glimpse (textOf (respace gap (stretches.map f)))
      = glimpse (gap ++ (textOf stretches ++ tail))
      ∧ (Lexeme.startsQuote ((textOf stretches ++ tail).dropWhile Component.isSpace) = true →
        Lexeme.startsQuote ((textOf (respace gap (stretches.map f))).dropWhile Component.isSpace)
          = true) := by
  induction stretches generalizing gap with
  | nil =>
    refine ⟨rfl, ?_, fun h => ?_⟩
    · by_cases hne : gap = []
      · rw [hne]
        exact htail.symm
      · exact (glimpse_spaces hne hgap _).symm
    · rw [textOf_nil, List.nil_append, hquote] at h
      cases h
  | cons a stretches ih =>
    obtain ⟨ha, hrest⟩ := List.forall_mem_cons.1 hf
    rw [chainedBefore, Bool.and_eq_true] at hchained
    rw [List.map_cons, respace, textOf_cons, List.append_assoc]
    rcases ha with ⟨heq, hspace, hchars⟩ | hkin
    · -- whitespace is gathered
      rw [heq, if_pos hspace, List.dropWhile_append_of_pos hchars, ← List.append_assoc gap]
      exact ih hrest hchained.2 (List.forall_mem_append.2 ⟨hgap, hchars⟩)
    · obtain ⟨hmore, hglimpse, hquotes⟩ := ih hrest hchained.2 (List.forall_mem_nil _)
      rw [List.nil_append] at hglimpse
      -- what comes looks like what came, so the stretch in the place of another ends before it
      have hstops := hkin.stops hglimpse.symm hquotes hchained.1
      rw [if_neg (by simp [hkin.isSpace_eq_false])]
      split
      · next hnone =>
        rw [chained, textOf_cons, hstops, hmore, hnone,
          hkin.startsQuote_eq _ (textOf stretches ++ tail)]
        exact ⟨rfl, hkin.glimpse_eq hglimpse, id⟩
      · -- a run of whitespace ends before a word
        next hne =>
        obtain ⟨hne', hspaces⟩ := squeezed_spaces hne hgap
        obtain ⟨c, _, cs, _, htext, -, hc, -⟩ := hkin.exists_cons
        rw [chained, chained, textOf_cons, textOf_cons, hstops, hmore, space,
          glimpse_spaces hne' hspaces,
          glimpse_spaces hne hgap, List.dropWhile_append_of_pos hspaces, textOf_cons,
          hkin.startsQuote_eq _ (textOf stretches ++ tail)]
        refine ⟨?_, rfl, id⟩
        simp [Lexeme.stops, htext, hc]

end Respace

/-! ## Printed stretches -/

section Sturdy

variable {a : Stretch}

theorem isSturdy_of_ends {c d : Char} (hfirst : a.text.head? = some c)
    (hlast : a.text.getLast? = some d)
    (hblank : Text.isBlank c = false ∧ Text.isBlank d = false) (hnewline : '\n' ∉ a.text)
    (h : a.isString = true ∨ (∀ x ∈ a.text, Text.isQuote x = false)
      ∧ hasCommentMark a.text = false ∧ d ≠ '/') :
    a.isSturdy = true := by
  simp only [isSturdy, hfirst, hlast, Option.any_some, hblank, Bool.not_false, Bool.true_and,
    Bool.and_eq_true, Bool.not_eq_true', List.contains_eq_mem, decide_eq_false_iff_not,
    Bool.or_eq_true, List.any_eq_false,
    Bool.not_eq_true, bne_iff_ne, ne_eq, Option.some.injEq, beq_iff_eq]
  exact ⟨hnewline, h.imp_right fun h => ⟨⟨h.1, h.2.1⟩, Or.inr h.2.2⟩⟩

theorem isSturdy_printString {value : Text}
    (ha : a = ⟨printString value true, .leaf (.string value true)⟩) :
    a.isSturdy = true := by
  subst ha
  have hchar : ∀ c, '\n' ∉ printStringChar c := by
    intro c hmem
    unfold printStringChar controlEscape? at hmem
    split_ifs at hmem with hspecial hnewline hreturn hfeed
    · rcases hspecial with rfl | rfl <;> simp at hmem
    · simp at hmem
    · simp at hmem
    · simp at hmem
    · exact hnewline (List.mem_singleton.1 hmem).symm
  refine isSturdy_of_ends (c := '"') (d := '"') rfl ?_ ⟨rfl, rfl⟩ ?_ (Or.inl rfl)
  · exact List.getLast?_concat
  · simp [printString, hchar]

theorem isSturdy_printUrl {value : Text} (ha : a.text = "url(".toList ++ (value ++ [')']))
    (hchars : ∀ c ∈ value, isUrlChar c = true) (hmark : hasCommentMark value = false) :
    a.isSturdy = true := by
  have hall : ∀ c ∈ a.text, c ≠ '\n' ∧ Text.isQuote c = false := by
    have hplain : ∀ c ∈ value, c ≠ '\n' ∧ Text.isQuote c = false := by
      intro c hc
      have hc := hchars c hc
      simp only [isUrlChar, Component.isSpace, breaksUrl, Bool.and_eq_true, Bool.not_eq_true',
        Bool.or_eq_false_iff, beq_eq_false_iff_ne] at hc
      simp [Text.isQuote, hc]
    rw [ha]
    simp only [List.forall_mem_append, List.forall_mem_singleton]
    exact ⟨by simp [Text.isQuote], hplain, by decide⟩
  refine isSturdy_of_ends (c := 'u') (d := ')') ?_ ?_ ⟨rfl, rfl⟩ (fun hmem => (hall _ hmem).1 rfl)
    (Or.inr ⟨fun c hc => (hall c hc).2, ?_, by decide⟩)
  · rw [ha]
    rfl
  · rw [ha, ← List.append_assoc]
    exact List.getLast?_concat
  · rw [ha]
    simp [hasCommentMark, hasCommentMark_concat, hmark]

theorem isSturdy_printRange {first last : Nat} (ha : a.text = printRange first last) :
    a.isSturdy = true := by
  have hhex : ∀ n, ∀ c ∈ hexUpper n, Text.isBlank c = false ∧ Text.isQuote c = false ∧ c ≠ '/' := by
    intro n c hc
    have hc := (hexUpper_spec n).2.1 c hc
    have hne : ∀ {d : Char}, isHex d = false → c ≠ d := by
      rintro d hd rfl
      rw [hc] at hd
      cases hd
    exact ⟨isBlank_of_isHex hc, by simp [Text.isQuote, @hne '"' rfl, @hne '\'' rfl], hne rfl⟩
  have hall : ∀ c ∈ a.text, Text.isBlank c = false ∧ Text.isQuote c = false ∧ c ≠ '/' := by
    rw [ha, printRange]
    split
    · simp only [List.forall_mem_cons]
      exact ⟨by decide, by decide, hhex first⟩
    · simp only [List.forall_mem_cons, List.forall_mem_append]
      exact ⟨⟨by decide, by decide, hhex first⟩, by decide, hhex last⟩
  have hne : a.text ≠ [] := by
    rw [ha, printRange]
    split <;> exact List.cons_ne_nil _ _
  obtain ⟨c, cs, hcons⟩ := List.exists_cons_of_ne_nil hne
  obtain ⟨d, hlast⟩ : ∃ d, a.text.getLast? = some d := ⟨_, List.getLast?_eq_some_getLast hne⟩
  refine isSturdy_of_ends (by rw [hcons]; rfl) hlast ⟨(hall c (by simp [hcons])).1,
    (hall d (List.mem_of_getLast? hlast)).1⟩ (fun hmem => ?_) (Or.inr ⟨fun x hx => (hall x hx).2.1,
      hasCommentMark_eq_false fun hmem => (hall _ hmem).2.2 rfl,
      (hall d (List.mem_of_getLast? hlast)).2.2⟩)
  cases (hall _ hmem).1

end Sturdy

/-- What holds of a stretch that is printed anew: it can stand for what it was, is read
back, and stays when comments are removed and lines are stripped. -/
structure Reprints (a : Stretch) : Prop where
  kin : Kin (reprint a) a
  reads : (reprint a).Reads
  sturdy : (reprint a).isSturdy = true

end Stretch

/-- Is the lexeme printed as a text that says the same, before this text?  A unit that
looks like an exponent starts with an escape then, which takes a space behind it, and a
range is printed without leading zeros and question marks. -/
def Lexeme.isPrintable (rest : Text) : Lexeme → Bool
  | .leaf (.dimension _ unit) => printUnit unit == unit
  | .leaf (.unicodeRange _ _) => endsRange rest
  | _ => true

namespace Stretch

section Reprints

variable {c : Char} {u rest : Text}

theorem isSpace_eq_false_of_next {lexeme : Lexeme} (h : Lexeme.next c (u ++ rest) = (lexeme, rest))
    (hgap : lexeme.isGap = false) : Component.isSpace c = false := by
  rw [Bool.eq_false_iff]
  intro hspace
  rw [Lexeme.next, if_pos hspace] at h
  obtain ⟨rfl, -⟩ := Prod.mk.inj h
  cases hgap

theorem reprints_verbatim {lexeme : Lexeme} (h : Lexeme.next c (u ++ rest) = (lexeme, rest))
    (hescape : '\\' ∉ c :: u) (hverbatim : lexeme.isVerbatim = true) (hgap : lexeme.isGap = false)
    (hreads : Reads ⟨c :: u, lexeme⟩) (hsturdy : isSturdy ⟨c :: u, lexeme⟩ = true) :
    Reprints ⟨c :: u, lexeme⟩ := by
  have hprint := Lexeme.print_of_next h hverbatim hescape
  have hself : reprint ⟨c :: u, lexeme⟩ = ⟨c :: u, lexeme⟩ := by rw [reprint, hprint]
  refine ⟨?_, ?_, ?_⟩
  · rw [hself]
    refine .same rfl (isSpace_eq_false_of_next h hgap) hescape hgap ?_
    rintro rfl
    rw [← hprint] at hescape
    exact hescape List.mem_cons_self
  · rwa [hself]
  · rwa [hself]

theorem reprints_string {value : Text}
    (h : Lexeme.next c (u ++ rest) = (.leaf (.string value true), rest)) :
    Reprints ⟨c :: u, .leaf (.string value true)⟩ where
  kin := by
    obtain ⟨hquote, -⟩ := Lexeme.next_eq_string h
    exact .start (by rw [lookAlike, hquote]; rfl) (fun _ _ => rfl) rfl nofun
  reads := reads_string value
  sturdy := isSturdy_printString rfl

theorem reprints_url {value : Text}
    (h : Lexeme.next c (u ++ rest) = (.leaf (.url value true), rest))
    (hescape : '\\' ∉ c :: u) (hmark : hasCommentMark (c :: u) = false)
    (hnormal : ∀ d ∈ c :: u, isNormal d = true) : Reprints ⟨c :: u, .leaf (.url value true)⟩ := by
  obtain ⟨hc, hchars, before, after, hsplit⟩ := Lexeme.url_of_next h hescape
  have hprint : printUrl value true = "url(".toList ++ (value ++ [')']) := by
    refine printUrl_plain (fun d hd => ⟨hchars d hd, ?_⟩) fun d hd => hnormal d ?_
    · rintro rfl
      exact hescape (by rw [hsplit]; simp [hd])
    · rw [hsplit]
      simp [hd]
  have hfaithful : isFaithfulUrl value = true := by
    rw [isFaithfulUrl, List.all_eq_true]
    intro d hd
    have hchar := hchars d hd
    rw [isUrlChar, Bool.and_eq_true] at hchar
    rw [hchar.2]
    rfl
  refine ⟨?_, reads_url hfaithful, ?_⟩
  · show Kin ⟨printUrl value true, _⟩ _
    rw [hprint]
    refine .start (c := 'u') ?_ (fun _ _ => rfl) rfl (fun heq => by cases heq)
    rcases hc with rfl | rfl <;> rfl
  · refine isSturdy_printUrl hprint hchars ?_
    rw [hsplit] at hmark
    exact (hasCommentMark_append (hasCommentMark_append hmark).2).1

theorem reprints_range {first last : Nat}
    (h : Lexeme.next c (u ++ rest) = (.leaf (.unicodeRange first last), rest))
    (hbound : first < 16 ^ 6 ∧ last < 16 ^ 6) :
    Reprints ⟨c :: u, .leaf (.unicodeRange first last)⟩ := by
  obtain ⟨hc, -⟩ := Lexeme.next_eq_range h
  refine ⟨?_, reads_unicodeRange hbound.1 hbound.2, isSturdy_printRange rfl⟩
  have hprint : ∃ ds, printRange first last = 'U' :: ds := by
    unfold printRange
    split <;> exact ⟨_, rfl⟩
  obtain ⟨ds, hds⟩ := hprint
  show Kin ⟨printRange first last, _⟩ _
  rw [hds]
  refine .start ?_ (fun _ _ => rfl) rfl nofun
  rcases hc with rfl | rfl <;> rfl

/-- **Stretches without a backslash can be printed anew.** -/
theorem reprints_of_next {after : Text} {lexeme : Lexeme}
    (h : Lexeme.next c (u ++ rest) = (lexeme, rest))
    (hescape : '\\' ∉ c :: u) (hmark : hasCommentMark (c :: u) = false)
    (hnormal : ∀ d ∈ c :: u, isNormal d = true) (hwell : lexeme.WellFormed)
    (hclean : lexeme.isClean = true)
    (hgap : lexeme.isGap = false) (hreads : Reads ⟨c :: u, lexeme⟩)
    (hsturdy : isSturdy ⟨c :: u, lexeme⟩ = true) (hprintable : lexeme.isPrintable after = true) :
    Reprints ⟨c :: u, lexeme⟩ := by
  by_cases hverbatim : lexeme.isVerbatim = true
  · exact reprints_verbatim h hescape hverbatim hgap hreads hsturdy
  cases lexeme with
  | leaf l =>
    rw [Lexeme.isClean, Option.isNone_iff_eq_none] at hclean
    cases l with
    | string value closed =>
      cases closed with
      | true => exact reprints_string h
      | false => cases hclean
    | url value closed =>
      cases closed with
      | true => exact reprints_url h hescape hmark hnormal
      | false => cases hclean
    | unicodeRange first last => exact reprints_range h hwell
    | dimension digits unit => exact absurd hprintable hverbatim
    | badString => cases hclean
    | badUrl => cases hclean
    | _ => exact absurd rfl hverbatim
  | comment text => cases hclean
  | _ => exact absurd rfl hverbatim

end Reprints

end Stretch

end NestedSheet
