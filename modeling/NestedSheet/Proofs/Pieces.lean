import NestedSheet.Compile
import NestedSheet.Proofs.Interpolation

/-!
# Pieces of a text

Interpolation cuts a text into pieces with a scanner.  What the pieces are is said here
without it, as a grammar: from left to right a complete quoted string, where one starts,
else a reference, where one starts, else one character (`Cuts`).  Every text is cut in
exactly one way, and it is the way of the scanner (`cuts_iff`).

Main result: `interpolateAt_pieces`, what interpolation makes of the pieces of a text.
-/

namespace NestedSheet

/-! ## The grammar -/

/-- The text `name` is the longest run of word characters that `name ++ rest` starts with, and
it is not empty. -/
structure IsWholeName (name rest : Text) : Prop where
  ne_nil : name ≠ []
  isWord : ∀ c ∈ name, Text.isWord c = true
  whole : rest.head?.all (fun c => !Text.isWord c) = true

/-- The text starts with a reference. -/
def StartsReference (t : Text) : Prop :=
  ∃ name rest, IsWholeName name rest ∧ t = '$' :: (name ++ rest)

/-- The text is cut into the pieces from left to right: a complete string goes before a
reference, and a reference before a single character. -/
inductive Cuts : Text → List Piece → Prop
  | nil : Cuts [] []
  | string {span rest : Text} {pieces : List Piece} :
    Text.Quotation span → Cuts rest pieces → Cuts (span ++ rest) (.verbatim span :: pieces)
  | reference {name rest : Text} {pieces : List Piece} :
    IsWholeName name rest → Cuts rest pieces →
    Cuts ('$' :: (name ++ rest)) (.reference name :: pieces)
  | character {c : Char} {rest : Text} {pieces : List Piece} :
    ¬ Text.StartsQuotation (c :: rest) → ¬ StartsReference (c :: rest) → Cuts rest pieces →
    Cuts (c :: rest) (.verbatim [c] :: pieces)

theorem IsWholeName.split {name rest : Text} (h : IsWholeName name rest) :
    (name ++ rest).takeWhile Text.isWord = name ∧ (name ++ rest).dropWhile Text.isWord = rest := by
  obtain ⟨htake, hdrop⟩ := Piece.takeWhile_append_stop h.whole name
  refine ⟨htake.trans (List.takeWhile_eq_self_iff.2 h.isWord), hdrop.trans ?_⟩
  rw [List.dropWhile_eq_nil_iff.2 h.isWord, List.nil_append]

/-- The run that a scanner takes off is the whole name. -/
theorem isWholeName_takeWhile {cs : Text} (h : cs.takeWhile Text.isWord ≠ []) :
    IsWholeName (cs.takeWhile Text.isWord) (cs.dropWhile Text.isWord) := by
  refine ⟨h, fun c hc => List.mem_takeWhile_imp hc, ?_⟩
  have hstop := List.head?_dropWhile_not Text.isWord cs
  cases hrest : cs.dropWhile Text.isWord with
  | nil => rfl
  | cons d ds =>
    rw [hrest] at hstop
    simpa using hstop

theorem startsReference_iff {c : Char} {cs : Text} :
    StartsReference (c :: cs) ↔ c = '$' ∧ cs.takeWhile Text.isWord ≠ [] := by
  constructor
  · rintro ⟨name, rest, hname, heq⟩
    obtain ⟨rfl, rfl⟩ := List.cons.inj heq
    rw [hname.split.1]
    exact ⟨rfl, hname.ne_nil⟩
  · rintro ⟨rfl, hname⟩
    exact ⟨_, _, isWholeName_takeWhile hname, by rw [List.takeWhile_append_dropWhile]⟩

/-- The scanner cuts a text as the grammar says. -/
theorem cuts_ofText (t : Text) : Cuts t (Piece.ofText t) := by
  induction t using piece_induction with
  | nil =>
    rw [Piece.ofText_nil]
    exact Cuts.nil
  | cons c cs ih =>
    rw [Piece.ofText_cons]
    revert ih
    rw [Piece.next]
    split
    · next span rest hspan =>
      obtain ⟨hquotation, htext⟩ := Text.completeSpan?_eq_some_iff.1 hspan
      intro ih
      rw [htext]
      exact Cuts.string hquotation ih
    · next hspan =>
      split
      · next hname =>
        intro ih
        have hcut := Cuts.reference (isWholeName_takeWhile hname.2) ih
        rwa [List.takeWhile_append_dropWhile, ← hname.1] at hcut
      · next hname =>
        intro ih
        exact Cuts.character (Text.completeSpan?_eq_none_iff.1 hspan)
          (fun hstarts => hname (startsReference_iff.1 hstarts)) ih

/-- **A text is cut into pieces in one way**, which is the way of the scanner. -/
theorem cuts_iff {t : Text} {pieces : List Piece} : Cuts t pieces ↔ pieces = Piece.ofText t := by
  refine ⟨fun h => ?_, fun h => h ▸ cuts_ofText t⟩
  induction h with
  | nil => rw [Piece.ofText_nil]
  | string hspan _ ih => rw [Piece.ofText_quotation hspan, ih]
  | @reference name rest pieces hname _ ih =>
    -- a dollar sign is no quote, so no string starts there
    rw [Piece.ofText_cons, Piece.next_of_not_quote rfl, hname.split.1, hname.split.2,
      if_pos ⟨rfl, hname.ne_nil⟩, ih]
  | character hspan hname _ ih =>
    rw [Piece.ofText_cons, Piece.next, Text.completeSpan?_eq_none_iff.2 hspan]
    simp only
    rw [if_neg fun h => hname (startsReference_iff.2 h), ih]

/-- The pieces of a text without references are its text. -/
theorem Cuts.flatten_verbatim {t : Text} {pieces : List Piece} (h : Cuts t pieces)
    (hnone : ∀ name, .reference name ∉ pieces) {f : Piece → Text}
    (hf : ∀ text, f (.verbatim text) = text) : pieces.flatMap f = t := by
  induction h with
  | nil => rfl
  | string _ _ ih =>
    rw [List.flatMap_cons, hf, ih fun name hmem => hnone name (List.mem_cons_of_mem _ hmem)]
  | reference _ _ _ => exact absurd List.mem_cons_self (hnone _)
  | character _ _ _ ih =>
    rw [List.flatMap_cons, hf, ih fun name hmem => hnone name (List.mem_cons_of_mem _ hmem)]
    rfl

/-! ## Filling in the values -/

/-- Every variable that a piece refers to has a value. -/
def AllDefined (env : Environment) (pieces : List Piece) : Prop :=
  ∀ name, .reference name ∈ pieces → env.has name = true

/-- The text that a piece becomes: its own, or that of the value of its variable. -/
def Piece.filled (env : Environment) : Piece → Text
  | .verbatim text => text
  | .reference name => (env.get? name).elim [] Value.toText

section Fill

variable {env : Environment}

theorem eval_of_defined {piece : Piece} (h : AllDefined env [piece]) :
    piece.eval env = .ok (piece.filled env) := by
  cases piece with
  | verbatim text => rfl
  | reference name =>
    obtain ⟨value, hvalue⟩ := Option.isSome_iff_exists.1 (h name List.mem_cons_self)
    rw [Piece.eval, Piece.filled, hvalue]
    rfl

theorem mapM_eval_of_defined {pieces : List Piece} (h : AllDefined env pieces) :
    pieces.mapM (Piece.eval env) = .ok (pieces.map (Piece.filled env)) := by
  refine mapM_eq_ok_iff.2 (List.forall₂_map_right_iff.2 (List.forall₂_same.2 fun piece hmem => ?_))
  refine eval_of_defined fun name hname => h name ?_
  rwa [List.mem_singleton.1 hname]

/-- The first piece without a value is the one that is told. -/
theorem mapM_eval_of_undefined {before after : List Piece} {name : Text}
    (hbefore : AllDefined env before) (hname : env.get? name = none) :
    (before ++ .reference name :: after).mapM (Piece.eval env) = .error name := by
  have hfirst : Piece.eval env (.reference name) = .error name := by
    rw [Piece.eval, hname]
  rw [List.mapM_append, mapM_eval_of_defined hbefore, List.mapM_cons, hfirst]
  rfl

/-- Either all variables have values, or there is a leftmost one that has none. -/
theorem exists_leftmost_undefined {pieces : List Piece} (h : ¬ AllDefined env pieces) :
    ∃ before name after, pieces = before ++ .reference name :: after ∧ AllDefined env before
      ∧ env.get? name = none := by
  induction pieces with
  | nil => exact absurd (fun name hname => absurd hname List.not_mem_nil) h
  | cons piece pieces ih =>
    by_cases hpiece : AllDefined env [piece]
    · have hrest : ¬ AllDefined env pieces := fun hrest => h fun name hname =>
        (List.mem_cons.1 hname).elim (fun heq => hpiece name (heq ▸ List.mem_cons_self)) (hrest name)
      obtain ⟨before, name, after, rfl, hbefore, hname⟩ := ih hrest
      refine ⟨piece :: before, name, after, rfl, fun other hother => ?_, hname⟩
      exact (List.mem_cons.1 hother).elim (fun heq => hpiece other (heq ▸ List.mem_cons_self))
        (hbefore other)
    · -- the first piece is the one
      cases piece with
      | verbatim text => exact absurd (fun name hname => nomatch List.mem_singleton.1 hname) hpiece
      | reference name =>
        refine ⟨[], name, pieces, rfl, nofun, Option.not_isSome_iff_eq_none.1 fun hsome => hpiece ?_⟩
        intro other hother
        obtain rfl : other = name := Piece.reference.inj (List.mem_singleton.1 hother)
        exact hsome

theorem interpolate_congr {other : Environment} {t : Text}
    (h : ∀ name, .reference name ∈ Piece.ofText t → env.get? name = other.get? name) :
    env.interpolate t = other.interpolate t := by
  have heval : ∀ piece ∈ Piece.ofText t, piece.eval env = piece.eval other := by
    rintro (text | name) hmem
    · rfl
    · rw [Piece.eval, Piece.eval, h name hmem]
  unfold Environment.interpolate
  generalize Piece.ofText t = pieces at heval
  congr 1
  induction pieces with
  | nil => rfl
  | cons piece pieces ih =>
    rw [List.mapM_cons, List.mapM_cons, heval piece List.mem_cons_self,
      ih fun p hp => heval p (List.mem_cons_of_mem _ hp)]

end Fill

/-- **Interpolation of a text**, whatever the text and the environment.  The text is cut into
pieces in one way.  If all variables that it refers to have values, the result is the pieces
one behind the other, each reference with the text of its value in its place; otherwise it is
the error for the leftmost reference without a value.  The result depends on these variables
alone, and a text without references stays as it is. -/
theorem interpolateAt_pieces (env : Environment) (origin : Origin) (t : Text) :
    ∃ pieces, (∀ list, Cuts t list ↔ list = pieces)
      ∧ (AllDefined env pieces →
        env.interpolateAt origin t = .ok (pieces.flatMap (Piece.filled env)))
      ∧ (¬ AllDefined env pieces → ∃ before name after,
        pieces = before ++ .reference name :: after ∧ AllDefined env before ∧ env.has name = false
          ∧ env.interpolateAt origin t = .error (.undefined name origin))
      ∧ (∀ other : Environment,
        (∀ name, .reference name ∈ pieces → env.get? name = other.get? name) →
        env.interpolateAt origin t = other.interpolateAt origin t)
      ∧ ((∀ name, .reference name ∉ pieces) → env.interpolateAt origin t = .ok t) := by
  have hcuts := cuts_ofText t
  have hfilled : AllDefined env (Piece.ofText t) →
      env.interpolateAt origin t = .ok ((Piece.ofText t).flatMap (Piece.filled env)) := by
    intro hdefined
    rw [Environment.interpolateAt, Environment.interpolate, mapM_eval_of_defined hdefined]
    rfl
  refine ⟨Piece.ofText t, fun _ => cuts_iff, hfilled, fun hundefined => ?_, fun other hagree => ?_,
    fun hnone => ?_⟩
  · obtain ⟨before, name, after, hpieces, hbefore, hname⟩ := exists_leftmost_undefined hundefined
    refine ⟨before, name, after, hpieces, hbefore, Option.isSome_eq_false_iff.2 (hname ▸ rfl), ?_⟩
    rw [Environment.interpolateAt, Environment.interpolate, hpieces,
      mapM_eval_of_undefined hbefore hname]
    rfl
  · rw [Environment.interpolateAt, interpolate_congr hagree]
    rfl
  · rw [hfilled fun name hname => absurd hname (hnone name),
      hcuts.flatten_verbatim hnone fun _ => rfl]

end NestedSheet
