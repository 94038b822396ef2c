import NestedSheet.Proofs.Boundaries

/-!
# How a lexeme is read

The scanner tries one kind of lexeme after the other.  `Scanned c cs lexeme rest` says which
of them it was: one constructor for each kind, with the text that it was read from and the
conditions under which it was tried.  The scanner is opened here only; what is to be shown of
every lexeme (what it leaves, where it ends, how it is printed) is shown by the cases of this
judgment, and a lexeme is known to be read again once its case is.

Main results: `called_of_identLike`, `measured_iff` and `punctuated_of_punctuation` for the parts
of the scanner, and `scanned_iff` for all of it.
-/

namespace NestedSheet

open Component

namespace Lexeme

/-! ## Names and what they call -/

/-- What is read where an identifier starts. -/
inductive Called (t : Text) : Lexeme → Text → Prop
  | ident {name rest : Text} (hread : readName t = (name, rest)) (hbracket : rest.head? ≠ some '(') :
    Called t (.leaf (.ident name)) rest
  /-- A function may be called like a URL if a quote is behind its bracket. -/
  | function {name rest : Text} (hread : readName t = (name, '(' :: rest))
    (hquote : isNamed "url" name = true → startsQuote (rest.dropWhile isSpace) = true) :
    Called t (.function name) rest
  | url {name after value rest : Text} {closed : Bool} (hread : readName t = (name, '(' :: after))
    (hname : isNamed "url" name = true) (hquote : startsQuote (after.dropWhile isSpace) = false)
    (hurl : readUrl after = (.url value closed, rest)) : Called t (.leaf (.url value closed)) rest
  | badUrl {name after rest : Text} (hread : readName t = (name, '(' :: after))
    (hname : isNamed "url" name = true) (hquote : startsQuote (after.dropWhile isSpace) = false)
    (hurl : readUrl after = (.badUrl, rest)) : Called t (.leaf .badUrl) rest

/-- A URL is read as nothing else. -/
theorem called_of_readUrl {t name after rest : Text} {leaf : Leaf}
    (hread : readName t = (name, '(' :: after)) (hname : isNamed "url" name = true)
    (hquote : startsQuote (after.dropWhile isSpace) = false) (hurl : readUrl after = (leaf, rest)) :
    Called t (.leaf leaf) rest := by
  have hleaf := hurl
  unfold readUrl at hleaf
  split at hleaf
  · cases hleaf
    exact .url hread hname hquote hurl
  · cases hleaf
    exact .url hread hname hquote hurl
  · cases hleaf
    exact .badUrl hread hname hquote hurl

theorem called_of_identLike {t rest : Text} {lexeme : Lexeme} (h : identLike t = (lexeme, rest)) :
    Called t lexeme rest := by
  unfold identLike at h
  simp only at h
  split at h
  · next after hafter =>
    have hread : readName t = ((readName t).1, '(' :: after) := Prod.ext rfl hafter
    split at h
    · next hurl =>
      simp only [Bool.and_eq_true, Bool.not_eq_true'] at hurl
      obtain ⟨rfl, rfl⟩ := Prod.mk.inj h
      exact called_of_readUrl hread hurl.1 hurl.2 rfl
    · next hurl =>
      obtain ⟨rfl, rfl⟩ := Prod.mk.inj h
      exact .function hread fun hname => by simpa [hname] using hurl
  · next hbracket =>
    obtain ⟨rfl, rfl⟩ := Prod.mk.inj h
    refine .ident rfl fun hhead => ?_
    obtain ⟨after, hafter⟩ := List.head?_eq_some_iff.1 hhead
    exact hbracket after hafter

theorem Called.identLike_eq {t rest : Text} {lexeme : Lexeme} (h : Called t lexeme rest) :
    identLike t = (lexeme, rest) := by
  cases h with
  | ident hread hbracket =>
    simp only [identLike, hread]
    split
    · exact absurd rfl hbracket
    · rfl
  | function hread hquote =>
    simp only [identLike, hread]
    rw [if_neg]
    intro hurl
    simp only [Bool.and_eq_true, Bool.not_eq_true'] at hurl
    rw [hquote hurl.1] at hurl
    cases hurl.2
  | url hread hname hquote hurl | badUrl hread hname hquote hurl =>
    simp only [identLike, hread, hname, hquote, hurl, Bool.not_false, Bool.and_self, if_true]

/-! ## Numbers and what they measure -/

/-- What is read behind the digits of a number. -/
inductive Measured (digits : Text) : Text → Lexeme → Text → Prop
  | dimension {after unit rest : Text} (hident : startsIdent after = true)
    (hread : readName after = (unit, rest)) :
    Measured digits after (.leaf (.dimension digits unit)) rest
  | percentage (rest : Text) : Measured digits ('%' :: rest) (.leaf (.percentage digits)) rest
  | number {rest : Text} (hident : startsIdent rest = false) (hpercent : rest.head? ≠ some '%') :
    Measured digits rest (.leaf (.number digits)) rest

theorem measured_iff {digits after rest : Text} {lexeme : Lexeme} :
    numeric digits after = (lexeme, rest) ↔ Measured digits after lexeme rest := by
  constructor
  · intro h
    unfold numeric at h
    split at h
    · next hident =>
      obtain ⟨rfl, rfl⟩ := Prod.mk.inj h
      exact .dimension hident rfl
    · next hident =>
      split at h
      · obtain ⟨rfl, rfl⟩ := Prod.mk.inj h
        exact .percentage _
      · next hpercent =>
        obtain ⟨rfl, rfl⟩ := Prod.mk.inj h
        refine .number (Bool.eq_false_iff.2 hident) fun hhead => ?_
        obtain ⟨cs, hcs⟩ := List.head?_eq_some_iff.1 hhead
        exact hpercent cs hcs
  · intro h
    cases h with
    | dimension hident hread =>
      unfold numeric
      rw [if_pos hident, hread]
    | percentage => rfl
    | number hident hpercent =>
      unfold numeric
      rw [hident, if_neg Bool.false_ne_true]
      split
      · exact absurd rfl hpercent
      · rfl

/-! ## Punctuation -/

/-- The character belongs with nothing that is behind it. -/
structure StandsAlone (c : Char) (cs : Text) : Prop where
  keyword : c = '@' → startsIdent cs = false
  hash : c = '#' → continuesName cs = false
  quote : Text.isQuote c = false
  opening : Bracket.ofOpening? c = none
  closing : Bracket.ofClosing? c = none
  comment : ¬ (c = '/' ∧ cs.head? = some '*')
  markup : ¬ (c = '<' ∧ Text.startsWith cs ['!', '-', '-'] = true)
  bars : ¬ (c = '|' ∧ cs.head? = some '|')
  equals : ¬ (joinsEquals c = true ∧ cs.head? = some '=')

/-- What is read where neither a name nor a number starts. -/
inductive Punctuated (c : Char) (cs : Text) : Lexeme → Text → Prop
  | atKeyword {name rest : Text} (hc : c = '@') (hident : startsIdent cs = true)
    (hread : readName cs = (name, rest)) : Punctuated c cs (.leaf (.atKeyword name)) rest
  | hash {name rest : Text} (hc : c = '#') (hname : continuesName cs = true)
    (hread : readName cs = (name, rest)) :
    Punctuated c cs (.leaf (.hash name (startsIdent cs))) rest
  | string {value rest : Text} (hc : Text.isQuote c = true)
    (hread : readString c cs = (value, .closed, rest)) :
    Punctuated c cs (.leaf (.string value true)) rest
  /-- The end of the text cuts the string off. -/
  | openString {value rest : Text} (hc : Text.isQuote c = true)
    (hread : readString c cs = (value, .endOfText, rest)) :
    Punctuated c cs (.leaf (.string value false)) rest
  | badString {value rest : Text} (hc : Text.isQuote c = true)
    (hread : readString c cs = (value, .broken, rest)) : Punctuated c cs (.leaf .badString) rest
  | opening {bracket : Bracket} (hc : Bracket.ofOpening? c = some bracket) :
    Punctuated c cs (.opening bracket) cs
  | closing {bracket : Bracket} (hc : Bracket.ofClosing? c = some bracket) :
    Punctuated c cs (.closing bracket) cs
  | comment {text after rest : Text} (hc : c = '/') (hcs : cs = '*' :: after)
    (hread : readComment after = (text, rest)) : Punctuated c cs (.comment text) rest
  | markup {rest : Text} (hc : c = '<') (hcs : cs = '!' :: '-' :: '-' :: rest) :
    Punctuated c cs (.leaf (.literal ['<', '!', '-', '-'])) rest
  | bars {rest : Text} (hc : c = '|') (hcs : cs = '|' :: rest) :
    Punctuated c cs (.leaf (.literal ['|', '|'])) rest
  | equals {rest : Text} (hc : joinsEquals c = true) (hcs : cs = '=' :: rest) :
    Punctuated c cs (.leaf (.literal [c, '='])) rest
  | char (halone : StandsAlone c cs) : Punctuated c cs (.leaf (.literal [c])) cs

theorem punctuated_of_quoted {c : Char} {cs rest : Text} {lexeme : Lexeme}
    (hc : Text.isQuote c = true) (h : quoted c cs = (lexeme, rest)) : Punctuated c cs lexeme rest := by
  obtain ⟨value, ending, after, hread⟩ : ∃ value ending after,
      readString c cs = (value, ending, after) := ⟨_, _, _, rfl⟩
  unfold quoted at h
  simp only [hread] at h
  obtain ⟨rfl, rfl⟩ := Prod.mk.inj h
  cases ending with
  | closed => exact .string hc hread
  | endOfText => exact .openString hc hread
  | broken => exact .badString hc hread

theorem punctuated_of_mark {c : Char} {cs rest : Text} {lexeme : Lexeme}
    (hc : c ≠ '@' ∧ c ≠ '#') (hquote : Text.isQuote c = false)
    (hopening : Bracket.ofOpening? c = none) (hclosing : Bracket.ofClosing? c = none)
    (h : mark c cs = (lexeme, rest)) : Punctuated c cs lexeme rest := by
  unfold mark at h
  split_ifs at h with hcomment hmarkup hbars hequals
  · obtain ⟨rfl, hhead⟩ := hcomment
    obtain ⟨after, rfl⟩ := List.head?_eq_some_iff.1 hhead
    obtain ⟨rfl, rfl⟩ := Prod.mk.inj h
    exact .comment rfl rfl rfl
  · obtain ⟨rfl, hstart⟩ := hmarkup
    obtain ⟨after, rfl⟩ := List.isPrefixOf_iff_prefix.1 hstart
    obtain ⟨rfl, rfl⟩ := Prod.mk.inj h
    exact .markup rfl rfl
  · obtain ⟨rfl, hhead⟩ := hbars
    obtain ⟨after, rfl⟩ := List.head?_eq_some_iff.1 hhead
    obtain ⟨rfl, rfl⟩ := Prod.mk.inj h
    exact .bars rfl rfl
  · obtain ⟨hjoins, hhead⟩ := hequals
    obtain ⟨after, rfl⟩ := List.head?_eq_some_iff.1 hhead
    obtain ⟨rfl, rfl⟩ := Prod.mk.inj h
    exact .equals hjoins rfl
  · obtain ⟨rfl, rfl⟩ := Prod.mk.inj h
    exact .char ⟨fun heq => absurd heq hc.1, fun heq => absurd heq hc.2, hquote, hopening, hclosing,
      hcomment, hmarkup, hbars, hequals⟩

theorem punctuated_of_punctuation {c : Char} {cs rest : Text} {lexeme : Lexeme}
    (h : punctuation c cs = (lexeme, rest)) : Punctuated c cs lexeme rest := by
  unfold punctuation at h
  split_ifs at h with hat hnumber hquote
  · subst hat
    unfold atSign at h
    split_ifs at h with hident
    · obtain ⟨rfl, rfl⟩ := Prod.mk.inj h
      exact .atKeyword rfl hident rfl
    · obtain ⟨rfl, rfl⟩ := Prod.mk.inj h
      exact .char ⟨fun _ => Bool.eq_false_iff.2 hident, by simp, rfl, rfl, rfl, by simp, by simp,
        by simp, by simp [joinsEquals]⟩
  · subst hnumber
    unfold numberSign at h
    split_ifs at h with hname
    · obtain ⟨rfl, rfl⟩ := Prod.mk.inj h
      exact .hash rfl hname rfl
    · obtain ⟨rfl, rfl⟩ := Prod.mk.inj h
      exact .char ⟨by simp, fun _ => Bool.eq_false_iff.2 hname, rfl, rfl, rfl, by simp, by simp,
        by simp, by simp [joinsEquals]⟩
  · exact punctuated_of_quoted hquote h
  · split at h
    · next hopening =>
      obtain ⟨rfl, rfl⟩ := Prod.mk.inj h
      exact .opening hopening
    · next hclosing =>
      obtain ⟨rfl, rfl⟩ := Prod.mk.inj h
      exact .closing hclosing
    · next hopening hclosing =>
      exact punctuated_of_mark ⟨hat, hnumber⟩ (Bool.eq_false_iff.2 hquote) hopening hclosing h

theorem StandsAlone.punctuation_eq {c : Char} {cs : Text} (h : StandsAlone c cs) :
    punctuation c cs = (.leaf (.literal [c]), cs) := by
  unfold punctuation
  split_ifs with hat hnumber hquote
  · rw [hat, atSign, h.keyword hat]
    rfl
  · rw [hnumber]
    exact if_neg (Bool.eq_false_iff.1 (h.hash hnumber))
  · rw [h.quote] at hquote
    cases hquote
  · rw [h.opening, h.closing]
    simp only [mark, if_neg h.comment, if_neg h.markup, if_neg h.bars, if_neg h.equals]
    rfl

theorem Punctuated.punctuation_eq {c : Char} {cs rest : Text} {lexeme : Lexeme}
    (h : Punctuated c cs lexeme rest) : punctuation c cs = (lexeme, rest) := by
  have hquoted : Text.isQuote c = true → punctuation c cs = quoted c cs := by
    intro hc
    simp only [Text.isQuote, Bool.or_eq_true, beq_iff_eq] at hc
    rcases hc with rfl | rfl <;> rfl
  cases h with
  | atKeyword hc hident hread =>
    subst hc
    rw [punctuation, if_pos rfl, atSign, if_pos hident, hread]
  | hash hc hname hread =>
    subst hc
    rw [punctuation, if_neg (by decide), if_pos rfl]
    refine (if_pos hname).trans ?_
    rw [hread]
  | string hc hread | openString hc hread | badString hc hread =>
    rw [hquoted hc, quoted, hread]
    rfl
  | opening hc =>
    unfold Bracket.ofOpening? at hc
    split_ifs at hc with hcurly hsquare hround <;> cases hc <;> subst c <;> rfl
  | closing hc =>
    unfold Bracket.ofClosing? at hc
    split_ifs at hc with hcurly hsquare hround <;> cases hc <;> subst c <;> rfl
  | comment hc hcs hread =>
    subst hc hcs
    exact congrArg (fun r => (Lexeme.comment r.1, r.2)) hread
  | markup hc hcs | bars hc hcs =>
    subst hc hcs
    rfl
  | equals hc hcs =>
    subst hcs
    simp only [joinsEquals, Bool.or_eq_true, beq_iff_eq] at hc
    rcases hc with (((rfl | rfl) | rfl) | rfl) | rfl <;> rfl
  | char halone => exact halone.punctuation_eq

theorem Punctuated.next_eq {c : Char} {cs rest : Text} {lexeme : Lexeme}
    (h : Punctuated c cs lexeme rest) (hc : IsPunctuation c) : next c cs = (lexeme, rest) :=
  (hc.next cs).trans h.punctuation_eq

theorem isPunctuation_of_isQuote {c : Char} (hc : Text.isQuote c = true) : IsPunctuation c := by
  simp only [Text.isQuote, Bool.or_eq_true, beq_iff_eq] at hc
  rcases hc with rfl | rfl <;> exact ⟨rfl, rfl, rfl, by decide⟩

/-! ## Every lexeme -/

/-- Nothing that is looked for before an identifier starts here. -/
structure Unclaimed (c : Char) (cs : Text) : Prop where
  space : isSpace c = false
  range : readRange? c cs = none
  arrow : ¬ (c = '-' ∧ Text.startsWith cs ['-', '>'] = true)

/-- **The cases of the scanner**, in the order in which it tries them. -/
inductive Scanned (c : Char) (cs : Text) : Lexeme → Text → Prop
  | whitespace (hspace : isSpace c = true) :
    Scanned c cs (.leaf (.whitespace (c :: cs.takeWhile isSpace))) (cs.dropWhile isSpace)
  | range {d : Char} {ds rest : Text} {first last : Nat} (hc : c = 'u' ∨ c = 'U')
    (hcs : cs = '+' :: d :: ds) (hd : (isHex d || d == '?') = true)
    (hread : readRange (d :: ds) = (.unicodeRange first last, rest)) :
    Scanned c cs (.leaf (.unicodeRange first last)) rest
  /-- The end of a markup comment. -/
  | arrow {rest : Text} (hc : c = '-') (hcs : cs = '-' :: '>' :: rest) :
    Scanned c cs (.leaf (.literal ['-', '-', '>'])) rest
  | name {lexeme : Lexeme} {rest : Text} (hother : Unclaimed c cs)
    (hident : startsIdent (c :: cs) = true) (h : Called (c :: cs) lexeme rest) :
    Scanned c cs lexeme rest
  | number {digits after rest : Text} {lexeme : Lexeme} (hother : Unclaimed c cs)
    (hident : startsIdent (c :: cs) = false) (hread : readNumber? (c :: cs) = some (digits, after))
    (h : Measured digits after lexeme rest) : Scanned c cs lexeme rest
  | punctuation {lexeme : Lexeme} {rest : Text} (hother : Unclaimed c cs)
    (hident : startsIdent (c :: cs) = false) (hnumber : readNumber? (c :: cs) = none)
    (h : Punctuated c cs lexeme rest) : Scanned c cs lexeme rest

theorem scanned_of_range {c : Char} {cs rest : Text} {leaf : Leaf}
    (h : readRange? c cs = some (leaf, rest)) : Scanned c cs (.leaf leaf) rest := by
  unfold readRange? at h
  split at h
  · next d ds =>
    split_ifs at h with hc
    have hread := Option.some.inj h
    -- a range is read in three ways, and always as one
    obtain ⟨first, last, rfl⟩ : ∃ first last, leaf = .unicodeRange first last := by
      have hleaf := congrArg Prod.fst hread
      unfold readRange at hleaf
      simp only at hleaf
      split_ifs at hleaf <;> exact ⟨_, _, hleaf.symm⟩
    exact .range hc.1 rfl hc.2 hread
  · cases h

theorem scanned_of_next {c : Char} {cs rest : Text} {lexeme : Lexeme}
    (h : next c cs = (lexeme, rest)) : Scanned c cs lexeme rest := by
  unfold next at h
  split at h
  · next hspace =>
    obtain ⟨rfl, rfl⟩ := Prod.mk.inj h
    exact .whitespace hspace
  next hspace =>
  split at h
  · next hrange =>
    obtain ⟨rfl, rfl⟩ := Prod.mk.inj h
    exact scanned_of_range hrange
  next hrange =>
  split at h
  · next harrow =>
    obtain ⟨rfl, hstart⟩ := harrow
    obtain ⟨after, rfl⟩ := List.isPrefixOf_iff_prefix.1 hstart
    obtain ⟨rfl, rfl⟩ := Prod.mk.inj h
    exact .arrow rfl rfl
  next harrow =>
  have hother : Unclaimed c cs := ⟨Bool.eq_false_iff.2 hspace, hrange, harrow⟩
  split at h
  · next hident => exact .name hother hident (called_of_identLike h)
  next hident =>
  split at h
  · next hread => exact .number hother (Bool.eq_false_iff.2 hident) hread (measured_iff.1 h)
  · next hnumber =>
    exact .punctuation hother (Bool.eq_false_iff.2 hident) hnumber (punctuated_of_punctuation h)

theorem Unclaimed.next_eq {c : Char} {cs : Text} (h : Unclaimed c cs) : next c cs =
    if startsIdent (c :: cs) then identLike (c :: cs)
    else match readNumber? (c :: cs) with
      | some (digits, rest) => numeric digits rest
      | none => punctuation c cs := by
  unfold next
  rw [if_neg (Bool.eq_false_iff.1 h.space), h.range]
  exact if_neg h.arrow

theorem Scanned.next_eq {c : Char} {cs rest : Text} {lexeme : Lexeme} (h : Scanned c cs lexeme rest) :
    next c cs = (lexeme, rest) := by
  cases h with
  | whitespace hspace => rw [next, if_pos hspace]
  | range hc hcs hd hread =>
    subst hcs
    have hspace : ¬ isSpace c = true := by rcases hc with rfl | rfl <;> decide
    rw [next, if_neg hspace, readRange?, if_pos ⟨hc, hd⟩, hread]
  | arrow hc hcs =>
    subst hc hcs
    rw [next, if_neg (by decide), readRange?_eq_none (Or.inl rfl)]
    exact if_pos ⟨rfl, rfl⟩
  | name hother hident h => rw [hother.next_eq, if_pos hident, h.identLike_eq]
  | number hother hident hread h =>
    rw [hother.next_eq, hident, if_neg Bool.false_ne_true, hread]
    exact measured_iff.2 h
  | punctuation hother hident hnumber h =>
    rw [hother.next_eq, hident, if_neg Bool.false_ne_true, hnumber]
    exact h.punctuation_eq

/-- **The judgment says what the scanner does**, no more and no less. -/
theorem scanned_iff {c : Char} {cs rest : Text} {lexeme : Lexeme} :
    next c cs = (lexeme, rest) ↔ Scanned c cs lexeme rest :=
  ⟨scanned_of_next, Scanned.next_eq⟩

end Lexeme

end NestedSheet
