import NestedSheet.Proofs.Glimpses

/-!
# Lexemes before another text

If two texts look the same to the lexemes before them, then one can take the place of the
other: `Stretch.ofText_exchange` puts a semicolon where a bracket was, and the stretches
before it stay what they are.  Most lexemes end before the one as before the other
(`Lexeme.stops_of_glimpse`).  The others have to be looked at one by one: a unicode range that
had its six digits, and a string or URL that broke off.
-/

namespace NestedSheet

open Component

/-! ## Lexemes that may end anywhere -/

namespace Component

theorem takeWhile_take_append {p : Char → Bool} {a : Char} (ha : p a = false) (t y : Text) :
    ∀ n, ((t ++ a :: y).take n).takeWhile p = (t.take n).takeWhile p := by
  induction t with
  | nil =>
    intro n
    cases n <;> simp [ha]
  | cons c t ih =>
    intro n
    cases n with
    | zero => rfl
    | succ n =>
      rw [List.cons_append, List.take_succ_cons, List.take_succ_cons, List.takeWhile_cons,
        List.takeWhile_cons, ih]

/-- A range is the same before every character that is not part of one. -/
theorem readRange_append {a : Char} (hhex : isHex a = false) (hmark : a ≠ '?') (hhyphen : a ≠ '-')
    (s y : Text) : readRange (s ++ a :: y) = ((readRange s).1, (readRange s).2 ++ a :: y) := by
  have hrun : ∀ t : Text, hexRun (t ++ a :: y) = hexRun t :=
    fun t => takeWhile_take_append hhex t y 6
  have hmarks : ∀ (n : Nat) (t : Text), ((t ++ a :: y).take n).takeWhile (· == '?')
      = (t.take n).takeWhile (· == '?') :=
      fun n t => takeWhile_take_append (by simpa using hmark) t y n
  have hdrop : ∀ (t : Text) {n : Nat}, n ≤ t.length → (t ++ a :: y).drop n = t.drop n ++ a :: y :=
    fun t n hn => List.drop_append_of_le_length hn
  have hrunlength : ∀ t : Text, (hexRun t).length ≤ t.length := fun t =>
    (List.takeWhile_prefix _).length_le.trans (List.length_take_le' 6 t)
  have hmarkslength : ∀ (n : Nat) (t : Text), ((t.take n).takeWhile (· == '?')).length ≤ t.length :=
    fun n t => (List.takeWhile_prefix _).length_le.trans (List.length_take_le' n t)
  unfold readRange
  simp only [hrun, hdrop s (hrunlength s), hmarks]
  generalize s.drop (hexRun s).length = after
  split
  · rw [hdrop after (hmarkslength _ after)]
  · cases after with
    | nil => simp [hhyphen]
    | cons d ds =>
      simp only [List.cons_append, List.head?_cons, List.drop_one, List.tail_cons, hrun,
        hdrop ds (hrunlength ds)]
      split <;> rfl

/-- A string that a newline breaks is the same before every newline. -/
theorem readString_broken {quote : Char} {s value rest : Text}
    (h : readString quote s = (value, .broken, rest)) : rest.head? = some '\n' ∧ ∃ body,
      s = body ++ rest ∧ ∀ rest', rest'.head? = some '\n' →
        readString quote (body ++ rest') = (value, .broken, rest') := by
  obtain ⟨body, stop, after, rfl, hbody, hstop⟩ := exists_stringBody h nofun
  cases hstop with
  | broken hquote =>
    refine ⟨rfl, body, rfl, fun rest' hhead => ?_⟩
    obtain ⟨ds, rfl⟩ := List.head?_eq_some_iff.1 hhead
    rw [hbody.read, (StringEnd.broken hquote ds).read, List.append_nil]

end Component

namespace Lexeme

section Faulty

variable {c : Char} {cs rest : Text}

theorem next_badUrl (h : next c cs = (.leaf .badUrl, rest)) (hrest : rest ≠ []) :
    ∃ u, cs = u ++ rest ∧ ∀ rest', next c (u ++ rest') = (.leaf .badUrl, rest') := by
  cases scanned_of_next h with
  | name hother hident h =>
    cases h with
    | badUrl hread hname hquote hurl =>
      obtain ⟨u, rfl, hlocal⟩ := url_local hother hident hread hname hquote hurl hrest
      exact ⟨u, rfl, fun rest' => (hlocal rest').next_eq⟩
  | number _ _ _ h => cases h
  | punctuation _ _ _ h => cases h

/-- A broken string is the same before every newline. -/
theorem next_badString (h : next c cs = (.leaf .badString, rest)) : rest.head? = some '\n'
    ∧ ∃ u, cs = u ++ rest ∧ ∀ rest', rest'.head? = some '\n' →
      next c (u ++ rest') = (.leaf .badString, rest') := by
  cases scanned_of_next h with
  | name _ _ h => cases h
  | number _ _ _ h => cases h
  | punctuation _ _ _ h =>
    cases h with
    | badString hc hread =>
      obtain ⟨hhead, u, rfl, hlocal⟩ := readString_broken hread
      exact ⟨hhead, u, rfl, fun rest' hrest' =>
        (Punctuated.badString hc (hlocal rest' hrest')).next_eq (isPunctuation_of_isQuote hc)⟩

/-- A range is read behind its letter, the plus sign and a first digit. -/
theorem next_eq_range {first last : Nat}
    (h : next c cs = (.leaf (.unicodeRange first last), rest)) : (c = 'u' ∨ c = 'U')
      ∧ ∃ d ds, cs = '+' :: d :: ds ∧ (isHex d || d == '?') = true
        ∧ readRange (d :: ds) = (.unicodeRange first last, rest) := by
  cases scanned_of_next h with
  | range hc hcs hd hread => exact ⟨hc, _, _, hcs, hd, hread⟩
  | name _ _ h => cases h
  | number _ _ _ h => cases h
  | punctuation _ _ _ h => cases h

end Faulty

theorem startsQuote_exchange {r y z : Text}
    (h : startsQuote ((r ++ '}' :: y).dropWhile isSpace) = true) :
    startsQuote ((r ++ ';' :: z).dropWhile isSpace) = true := by
  obtain ⟨run, more, rfl, hrun, hmore⟩ := exists_takeWhile isSpace r
  rw [List.append_assoc] at h ⊢
  cases more with
  | nil =>
    rw [List.nil_append, dropWhile_run hrun rfl] at h
    cases h
  | cons c cs =>
    have hstop : ∀ x, (c :: cs ++ x).head?.any isSpace = false := fun _ => hmore
    rw [dropWhile_run hrun (hstop _)] at h ⊢
    exact h

section Exchange

variable {c : Char} {s r y : Text}

theorem append_cancel_bracket {u : Text} (h : s ++ '}' :: y = u ++ (r ++ '}' :: y)) : s = u ++ r :=
  List.append_cancel_right (h.trans (List.append_assoc ..).symm)

/-- A lexeme that ends before the bracket ends before a text that looks the same. -/
theorem next_exchange_steady {lexeme : Lexeme} (hsteady : lexeme.isSteady = true)
    (h : next c (s ++ '}' :: y) = (lexeme, r ++ '}' :: y)) (z : Text) :
    ∃ u, s = u ++ r ∧ next c (s ++ ';' :: z) = (lexeme, r ++ ';' :: z) := by
  obtain ⟨u, hu, hlocal⟩ := next_local h
    (List.append_ne_nil_of_right_ne_nil r (List.cons_ne_nil _ _))
  obtain rfl := append_cancel_bracket hu
  rw [hu] at h
  refine ⟨u, rfl, ?_⟩
  have hlook : glimpse (r ++ '}' :: y) = glimpse (r ++ ';' :: z) :=
    glimpse_append (show glimpse ('}' :: y) = glimpse (';' :: z) from rfl) (by simp)
  rw [List.append_assoc]
  refine hlocal _ (stops_of_glimpse hlook startsQuote_exchange (fun _ => ?_)
    (stops_of_next h hsteady))
  cases r with
  | nil => exact ⟨rfl, by simp⟩
  | cons d ds => exact ⟨rfl, Iff.rfl⟩

/-- A range is read up to the bracket without a look at it. -/
theorem next_exchange_range {first last : Nat}
    (h : next c (s ++ '}' :: y) = (.leaf (.unicodeRange first last), r ++ '}' :: y)) (z : Text) :
    ∃ u, s = u ++ r
      ∧ next c (s ++ ';' :: z) = (.leaf (.unicodeRange first last), r ++ ';' :: z) := by
  obtain ⟨hc, d, ds, heq, hstart, hread'⟩ := next_eq_range h
  -- neither the sign nor the digit behind it is the bracket
  cases s with
  | nil => cases heq
  | cons e s =>
  obtain ⟨rfl, hdigits⟩ := List.cons.inj heq
  cases s with
  | nil =>
    obtain ⟨rfl, -⟩ := List.cons.inj hdigits
    cases hstart
  | cons d' s =>
    obtain ⟨rfl, rfl⟩ := List.cons.inj hdigits
    have hbracket := readRange_append (a := '}') rfl (by decide) (by decide) (d' :: s) y
    obtain ⟨hleaf, hrest⟩ := Prod.mk.inj (hbracket.symm.trans hread')
    have hself : readRange (d' :: s) = (.unicodeRange first last, r) :=
      Prod.ext hleaf (List.append_cancel_right hrest)
    obtain ⟨u, _, _, hu, -⟩ := exists_isRange hself
    have hread'' := readRange_append (a := ';') rfl (by decide) (by decide) (d' :: s) z
    rw [hself] at hread''
    exact ⟨'+' :: u, by rw [hu, List.cons_append], (Scanned.range hc rfl hstart hread'').next_eq⟩

/-- **A semicolon in the place of a bracket**: a lexeme before it stays what it is. -/
theorem next_exchange {lexeme : Lexeme} (h : next c (s ++ '}' :: y) = (lexeme, r ++ '}' :: y))
    (z : Text) : ∃ u, s = u ++ r ∧ next c (s ++ ';' :: z) = (lexeme, r ++ ';' :: z) := by
  by_cases hsteady : lexeme.isSteady = true
  · exact next_exchange_steady hsteady h z
  unfold isSteady at hsteady
  split at hsteady
  · exact next_exchange_range h z
  · obtain ⟨hhead, u, hu, hlocal⟩ := next_badString h
    obtain rfl := append_cancel_bracket hu
    refine ⟨u, rfl, ?_⟩
    rw [List.append_assoc]
    refine hlocal _ ?_
    cases r with
    | nil => cases hhead
    | cons d ds => exact hhead
  · obtain ⟨u, hu, hlocal⟩ := next_badUrl h
      (List.append_ne_nil_of_right_ne_nil r (List.cons_ne_nil _ _))
    obtain rfl := append_cancel_bracket hu
    refine ⟨u, rfl, ?_⟩
    rw [List.append_assoc]
    exact hlocal _
  · exact absurd rfl hsteady

end Exchange

end Lexeme

namespace Stretch

theorem ofText_closing (y : Text) : ofText ('}' :: y) = ⟨['}'], .closing .curly⟩ :: ofText y :=
  @ofText_next '}' [] y _ (IsPunctuation.next ⟨rfl, rfl, rfl, by decide⟩ y)

theorem ofText_ending (y : Text) : ofText (';' :: y) = ⟨[';'], Lexeme.literal [';']⟩ :: ofText y :=
  @ofText_next ';' [] y _ (IsPunctuation.next ⟨rfl, rfl, rfl, by decide⟩ y)

/-- **A semicolon before a bracket** is a stretch of its own, and all other stretches stay
what they are. -/
theorem ofText_exchange {y : Text} {lead trail : List Stretch} : ∀ {x : Text},
    ofText (x ++ '}' :: y) = lead ++ ⟨['}'], .closing .curly⟩ :: trail → textOf lead = x →
      ofText (x ++ ';' :: '}' :: y)
        = lead ++ ⟨[';'], Lexeme.literal [';']⟩ :: ⟨['}'], .closing .curly⟩ :: trail := by
  induction lead with
  | nil =>
    rintro x h rfl
    rw [textOf_nil, List.nil_append, List.nil_append, ofText_closing] at h
    rw [textOf_nil, List.nil_append, List.nil_append, ofText_ending, ofText_closing,
      (List.cons.inj h).2]
  | cons a lead ih =>
    rintro x h rfl
    have htrail : '}' :: y = textOf (⟨['}'], .closing .curly⟩ :: trail) := by
      have htext := textOf_ofText (textOf (a :: lead) ++ '}' :: y)
      rw [h, textOf_append] at htext
      exact (List.append_cancel_left htext).symm
    rw [List.cons_append] at h
    -- the first stretch ends before the bracket, so it is read in the same way before both texts
    obtain ⟨c, u, hcons, hnext⟩ := @next_of_ofText _ a [] _ h
    have hrest := @ofText_end (lead ++ _) [a] _ h
    rw [textOf_append, ← htrail] at hnext hrest
    rw [← List.append_assoc] at hnext
    obtain ⟨v, hv, hexchange⟩ := Lexeme.next_exchange hnext ('}' :: y)
    obtain rfl : u = v := List.append_cancel_right hv
    rw [List.append_assoc] at hexchange
    obtain ⟨text, lexeme⟩ := a
    obtain rfl : text = c :: u := hcons
    rw [textOf_cons, List.append_assoc, ofText_next hexchange, ih hrest rfl, List.cons_append]

end Stretch

end NestedSheet
