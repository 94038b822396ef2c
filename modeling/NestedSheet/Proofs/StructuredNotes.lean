import NestedSheet.Proofs.CommentNotes
import NestedSheet.Proofs.Compressed
import NestedSheet.Proofs.Identifiers
import NestedSheet.Proofs.Placement

/-!
# Notes in directives

The structured note of a rule is a directive with two entries, one for the file as a URI
and one for the line.  Both values are made of graphic ASCII characters whatever the name
of the file is, and so they are read back from the identifiers that they are written as.

One character gets in the way.  The semicolon is kept in a URI, and in the compressed
style it is cut off at the end of a declaration, with the backslash before it left behind.
The backslash then takes the brace that closes the entry.  So the note is read as what it
says if and only if the URI does not end with a semicolon (`locates_structuredOf`).

Main results: `Source.read_entry`, `locates_structuredOf`, `notes_self_contained`.
-/

namespace NestedSheet

open Component

/-! ## Graphic characters -/

namespace Text

/-- Is the character a letter, a digit or a mark of ASCII? -/
def isGraphic (c : Char) : Bool :=
  0x20 < c.toNat && c.toNat < 0x7F

/-- Is the character a graphic one or the space? -/
def isPrintable (c : Char) : Bool :=
  c == ' ' || isGraphic c

variable {c : Char}

theorem isPrintable_of_isGraphic (h : isGraphic c = true) : isPrintable c = true := by
  rw [isPrintable, h, Bool.or_true]

theorem toNat_of_isPrintable (h : isPrintable c = true) : 0x20 ≤ c.toNat ∧ c.toNat < 0x7F := by
  simp only [isPrintable, isGraphic, Bool.or_eq_true, beq_iff_eq, Bool.and_eq_true,
    decide_eq_true_eq] at h
  rcases h with rfl | ⟨hlow, hhigh⟩
  · decide
  · exact ⟨by omega, hhigh⟩

theorem ne_of_isPrintable {d : Char} (h : isPrintable c = true) (hd : isPrintable d = false) :
    c ≠ d := by
  rintro rfl
  rw [h] at hd
  cases hd

theorem isNormal_of_isPrintable (h : isPrintable c = true) : isNormal c = true := by
  simp [isNormal, @ne_of_isPrintable c '\r' h rfl, @ne_of_isPrintable c '\x0c' h rfl,
    @ne_of_isPrintable c '\x00' h rfl]

theorem isBlank_of_isGraphic (h : isGraphic c = true) : isBlank c = false := by
  simp only [isGraphic, Bool.and_eq_true, decide_eq_true_eq] at h
  simp [isBlank]
  omega

theorem isGraphic_of_isAlphanum (h : c.isAlphanum = true) : isGraphic c = true := by
  simp only [Char.isAlphanum, Char.isDigit, Bool.or_eq_true, isAlpha_iff, Bool.and_eq_true,
    decide_eq_true_eq, ge_iff_le, UInt32.le_iff_toNat_le] at h
  have hval : c.val.toNat = c.toNat := rfl
  simp only [isGraphic, Bool.and_eq_true, decide_eq_true_eq]
  have hbounds : 'A'.val.toNat = 65 ∧ 'Z'.val.toNat = 90 ∧ 'a'.val.toNat = 97 ∧ 'z'.val.toNat = 122
      ∧ '0'.val.toNat = 48 ∧ '9'.val.toNat = 57 := by decide
  omega

/-- A text of graphic characters is trimmed. -/
theorem trimmed_of_isGraphic {t : Text} (hne : t ≠ []) (h : ∀ c ∈ t, isGraphic c = true) :
    Trimmed t := by
  constructor
  · obtain ⟨c, cs, rfl⟩ := List.exists_cons_of_ne_nil hne
    simp [isBlank_of_isGraphic (h c List.mem_cons_self)]
  · obtain ⟨init, c, rfl⟩ := (List.eq_nil_or_concat t).resolve_left hne
    rw [List.concat_eq_append] at h ⊢
    simp [isBlank_of_isGraphic (h c (by simp))]

theorem isGraphic_percentByte (b : UInt8) : ∀ c ∈ percentByte b, isGraphic c = true := by
  have hdigit : ∀ n < 16, isGraphic (hexUpper n) = true := by decide
  have hb := b.toNat_lt
  simp only [percentByte, List.forall_mem_cons]
  exact ⟨rfl, hdigit _ (by omega), hdigit _ (by omega), List.forall_mem_nil _⟩

theorem isGraphic_percentQuoted (t : Text) : ∀ c ∈ percentQuoted t, isGraphic c = true := by
  intro c hc
  obtain ⟨d, -, hd⟩ := List.mem_flatMap.1 hc
  split at hd
  · next hkept =>
    obtain rfl := List.mem_singleton.1 hd
    rw [keptInUri, Bool.or_eq_true, List.contains_iff_mem] at hkept
    rcases hkept with hkept | hkept
    · exact isGraphic_of_isAlphanum hkept
    · exact List.all_eq_true.1 (show uriMarks.all isGraphic = true by decide) c hkept
  · obtain ⟨b, -, hb⟩ := List.mem_flatMap.1 hd
    exact isGraphic_percentByte b c hb

end Text

namespace Location

theorem isGraphic_fileUri (directory : Text) (origin : Origin) :
    ∀ c ∈ fileUri directory origin, Text.isGraphic c = true := by
  unfold fileUri
  split
  · exact List.forall_mem_append.2 ⟨List.all_eq_true.1 rfl, Text.isGraphic_percentQuoted _⟩
  · exact List.forall_mem_nil _

theorem isGraphic_lineText (origin : Origin) : ∀ c ∈ lineText origin, Text.isGraphic c = true := by
  unfold lineText
  split
  · intro c hc
    have hchar := Text.ofInt_chars _ c hc
    rw [Bool.or_eq_true, beq_iff_eq] at hchar
    rcases hchar with hdigit | rfl
    · exact Text.isGraphic_of_isAlphanum (by rw [Char.isAlphanum, hdigit, Bool.or_true])
    · rfl
  · exact List.forall_mem_nil _

/-! ## The text of an identifier -/

theorem escapeAll_append (t u : Text) : escapeAll (t ++ u) = escapeAll t ++ escapeAll u :=
  List.flatMap_append

/-- Only the first character of an identifier is special. -/
theorem identifier_append {t : Text} (h : t ≠ []) (u : Text) :
    identifier (t ++ u) = identifier t ++ escapeAll u := by
  obtain ⟨c, cs, hcs⟩ := List.exists_cons_of_ne_nil (escapeAll_ne_nil h)
  rw [identifier, identifier, escapeAll_append, hcs, List.cons_append, escapeFirst, escapeFirst]
  split <;> simp

/-- An identifier ends with the last character of its value, or with the space of an
escape. -/
theorem getLast?_identifier {t : Text} {c : Char} (h : t.getLast? = some c) :
    (identifier t).getLast? = some c ∨ (identifier t).getLast? = some ' ' := by
  obtain ⟨init, rfl⟩ := List.getLast?_eq_some_iff.1 h
  have hend : (escapeAll [c]).getLast? = some c := by
    rw [escapeAll, List.flatMap_singleton]
    split <;> rfl
  cases init with
  | nil =>
    rw [List.nil_append, identifier, escapeAll, List.flatMap_singleton]
    split
    · rw [escapeFirst]
      split
      · exact Or.inr List.getLast?_concat
      · exact Or.inl rfl
    · rw [escapeFirst, if_neg (by decide)]
      exact Or.inl rfl
  | cons d ds =>
    left
    rw [identifier_append (List.cons_ne_nil d ds),
      List.getLast?_append_of_ne_nil _ (escapeAll_ne_nil (List.cons_ne_nil c [])), hend]

theorem isPrintable_identifier {t : Text} (h : ∀ c ∈ t, Text.isGraphic c = true) :
    ∀ c ∈ identifier t, Text.isPrintable c = true := by
  have hall : ∀ c ∈ escapeAll t, Text.isPrintable c = true := by
    intro c hc
    obtain ⟨d, hd, hc⟩ := List.mem_flatMap.1 hc
    have hgraphic := Text.isPrintable_of_isGraphic (h d hd)
    split at hc
    · rw [List.mem_singleton.1 hc]
      exact hgraphic
    · rcases List.mem_cons.1 hc with rfl | hc
      · rfl
      · rw [List.mem_singleton.1 hc]
        exact hgraphic
  unfold identifier
  cases hescaped : escapeAll t with
  | nil => exact List.forall_mem_nil _
  | cons c cs =>
    rw [hescaped] at hall
    obtain ⟨hc, hcs⟩ := List.forall_mem_cons.1 hall
    rw [escapeFirst]
    split
    · -- the digits of the number, and the space behind them
      have hlt := (Text.toNat_of_isPrintable hc).2
      obtain ⟨-, hhex, -, -⟩ := hex4_spec c.toNat (by omega)
      refine List.forall_mem_append.2 ⟨List.forall_mem_cons.2 ⟨rfl, fun d hd => ?_⟩,
        List.forall_mem_cons.2 ⟨rfl, hcs⟩⟩
      have halphanum := isAlphanum_of_isHex (List.all_eq_true.1 hhex d hd)
      exact Text.isPrintable_of_isGraphic (Text.isGraphic_of_isAlphanum halphanum)
    · exact hall

/-- A word of letters is its own identifier. -/
theorem escapeAll_word {t : Text} (h : Text.isPlainWord t = true) : escapeAll t = t := by
  have hplain : ∀ c ∈ t, isPlain c = true := by
    intro c hc
    have hlower := (Text.isPlainWord_iff.1 h).2 c hc
    have halpha : c.isAlpha = true := Bool.or_eq_true_iff.2 (Or.inr hlower)
    simp [isPlain, Char.isAlphanum, halpha]
  rw [escapeAll, List.flatMap_congr fun c hc => if_pos (hplain c hc), List.flatMap_singleton']

/-! ## The text of a note -/

/-- What stands before the block of a note. -/
def heading : Text :=
  "@media -sass-debug-info".toList

/-- The name of the declarations in a note. -/
def property : Text :=
  "font-family".toList

/-- What an entry holds between its braces. -/
def insideOf (value : Text) : Text :=
  if value = [] then []
  else ({ name := property, value := identifier value } : Declaration).clipped

/-- The text of an entry. -/
def entryText (key value : Text) : Text :=
  key ++ '{' :: insideOf value ++ ['}']

/-- The text of a note up to its last brace. -/
def noteText (file line : Text) : Text :=
  heading ++ ('{' :: (entryText "filename".toList file ++ entryText "line".toList line) ++ ['}'])

theorem part_entry {annotate : Rule → Int → Text} {key : Text} (hkey : Text.isPlainWord key = true)
    (value : Text) :
    Node.part .compressed annotate 1 (entry key value) = .text (entryText key value) := by
  -- the same for the two cases of an entry: one declaration, or none that is visible
  have hpart : ∀ (children : List Node) (declarations : List Declaration),
      Node.parts .compressed annotate 1 children = declarations.map .declaration →
      Node.part .compressed annotate 1 (.rule { resolved := some [[key]] } children)
        = .text (key ++ '{' :: [';'].intercalate (declarations.map Declaration.clipped) ++ ['}']) := by
    intro children declarations hparts
    rw [Node.part]
    show Part.text (Rule.layout .compressed _ 1 _ (Node.parts .compressed annotate 1 children)) = _
    rw [hparts, Rule.layout_declarations, Rule.selectors_compressed rfl (by simp)]
    simp
  rw [entry, escapeAll_word hkey, entryText, insideOf]
  split
  · next hvalue =>
    rw [hvalue]
    exact hpart _ [] rfl
  · next hvalue =>
    have hparts := @Node.parts_declarations .compressed annotate 1
      [{ name := property, value := identifier value }]
      (List.forall_mem_singleton.2 (identifier_ne_nil hvalue))
    refine (hpart _ _ hparts).trans ?_
    rw [List.map_singleton, List.intercalate_singleton]

/-- A compressed block of two texts, the second of which ends with a brace. -/
theorem layoutBlock_texts (d : Directive) (t u : Text) :
    d.layoutBlock .compressed 1 [.text t, .text (u ++ ['}'])]
      = d.value ++ ('{' :: (t ++ (u ++ ['}'])) ++ ['}']) := by
  have hstrip := @Text.dropEndWhile_concat Text.isBlank '}' rfl (d.value ++ '{' :: (t ++ u))
  have htext : d.value ++ '{' :: (t ++ u) ++ ['}'] = d.value ++ '{' :: (t ++ (u ++ ['}'])) := by simp
  rw [htext] at hstrip
  exact (congrArg (· ++ ['}']) hstrip).trans (List.append_assoc ..)

/-- **A note is its heading with two entries in braces.** -/
theorem structuredOf_eq (options : Options) (rule : Rule) :
    SourceNote.structuredOf options rule
      = noteText (fileUri options.directory rule.origin) (lineText rule.origin) ++ ['\n'] := by
  have hparts : Node.parts .compressed SourceNote.silent 1
      [entry "filename".toList (fileUri options.directory rule.origin),
        entry "line".toList (lineText rule.origin)]
      = [.text (entryText "filename".toList (fileUri options.directory rule.origin)),
        .text (entryText "line".toList (lineText rule.origin))] := by
    have hvisible : ∀ key value, (entry key value).visible = true := fun _ _ => rfl
    rw [Node.parts, if_pos (hvisible _ _), Node.parts, if_pos (hvisible _ _), Node.parts,
      part_entry rfl, part_entry rfl]
  rw [SourceNote.structuredOf, directive, Node.layout, Node.part, if_neg (by simp)]
  show Directive.layoutBlock .compressed 1 _ (Node.parts .compressed SourceNote.silent 1 _) ++ _ = _
  rw [hparts]
  exact congrArg (· ++ ['\n']) (layoutBlock_texts _ _ _)

/-! ## The inside of an entry -/

section Value

variable {value rest : Text}

/-- The value is made of graphic characters, and nothing is cut off at its end. -/
structure IsKept (value : Text) : Prop where
  graphic : ∀ c ∈ value, Text.isGraphic c = true
  last : value.getLast? ≠ some ';'

theorem newline_not_mem_graphic (h : ∀ c ∈ value, Text.isGraphic c = true) : '\n' ∉ value :=
  fun hmem => absurd (h '\n' hmem) (by decide)

/-- Nothing is cut off unless the value ends with a semicolon. -/
theorem IsKept.insideOf_eq (h : IsKept value) (hne : value ≠ []) :
    insideOf value = property ++ ':' :: identifier value := by
  have hclipped : Declaration.isClipped { name := property, value := identifier value } = false := by
    cases hlast : value.getLast? with
    | none => exact absurd (List.getLast?_eq_none_iff.1 hlast) hne
    | some c =>
      have hmem : c ∈ value := List.mem_of_getLast? hlast
      have hsemicolon : c ≠ ';' := by
        rintro rfl
        exact h.last hlast
      have hnewline : c ≠ '\n' := by
        rintro rfl
        exact newline_not_mem_graphic h.graphic hmem
      -- the identifier ends as the value does, or with a space, which is not cut off here
      rcases getLast?_identifier hlast with hend | hend
      · simp [Declaration.isClipped, hend, hsemicolon, hnewline]
      · simp [Declaration.isClipped, hend]
  rw [insideOf, if_neg hne, (Declaration.clipped_eq_iff (identifier_ne_nil hne)).2 hclipped,
    Declaration.spelling]
  simp

/-- The components of the declaration of a value. -/
def declarationComponents (p : Position) (value : Text) : List Component :=
  [.leaf p (.ident property), .leaf (p.after property) (.literal [':']),
    .leaf ((p.after property).after [':']) (.ident value)]

theorem lexes_declaration (hgraphic : ∀ c ∈ value, Text.isGraphic c = true) (hne : value ≠ [])
    (hrest : endsWord rest = true) (p : Position) :
    Lexes p (property ++ ':' :: identifier value) (declarationComponents p value) rest := by
  have hproperty : IsName property := ⟨rfl, List.all_eq_true.1 rfl⟩
  -- each of the three is read with those behind it as the text that follows
  have hname := @lexes_word property (':' :: identifier value ++ rest) hproperty rfl p
  have hcolon := @lexes_mark ':' rfl (p.after property) (identifier value ++ rest)
  have hvalue := lexes_identifier hne (newline_not_mem_graphic hgraphic) hrest
    ((p.after property).after [':'])
  exact hname.append (hcolon.append hvalue)

/-- The components between the braces of an entry. -/
def insideComponents (p : Position) (value : Text) : List Component :=
  if value = [] then [] else declarationComponents p value

theorem IsKept.lexes_inside (h : IsKept value) (p : Position) (rest : Text) :
    Lexes p (insideOf value) (insideComponents p value) ('}' :: rest) := by
  unfold insideComponents
  split
  · next hnil =>
    subst hnil
    exact Lexes.nil p _
  · next hne =>
    rw [h.insideOf_eq hne]
    exact lexes_declaration h.graphic hne rfl p

end Value

/-! ## The components of a note -/

/-- The components of an entry. -/
def entryComponents (p : Position) (key value : Text) : List Component :=
  [.leaf p (.ident key),
    .block (p.after key) .curly (insideComponents ((p.after key).after ['{']) value)]

theorem IsKept.lexes_entry {key value : Text} (h : IsKept value) (hkey : Text.isPlainWord key = true)
    (p : Position) (rest : Text) :
    Lexes p (entryText key value) (entryComponents p key value) rest := by
  have hword := @lexes_word key ('{' :: insideOf value ++ ['}'] ++ rest)
    (Text.isName_of_isPlainWord hkey) rfl p
  have hbraces := (h.lexes_inside ((p.after key).after ['{']) rest).braces
  rw [entryText, List.append_assoc]
  exact hword.append hbraces

/-- The components of the heading of a note. -/
def headingComponents (p : Position) : List Component :=
  [.leaf p (.atKeyword "media".toList), .leaf (p.after "@media".toList) (.whitespace [' ']),
    .leaf (p.after "@media ".toList) (.ident "-sass-debug-info".toList)]

theorem lexes_heading (p : Position) (rest : Text) :
    Lexes p heading (headingComponents p) ('{' :: rest) := by
  have hname : IsName "media".toList := ⟨rfl, List.all_eq_true.1 rfl⟩
  have hkeyword := @lexes_atWord _ (" -sass-debug-info".toList ++ '{' :: rest) hname rfl p
  have hspace := @lexes_spaces (p.after "@media".toList) [' ']
    ("-sass-debug-info".toList ++ '{' :: rest) (List.forall_mem_singleton.2 rfl) rfl
  -- the last part starts with a hyphen, and so it is no word but still an identifier
  have hread := @readName_append "-sass-debug-info".toList ('{' :: rest) (List.all_eq_true.1 rfl) rfl
  have hident := lexes_ident (List.cons_ne_nil _ _) ⟨hread, rfl⟩ rfl (p.after "@media ".toList)
  exact hkeyword.append (hspace.append hident)

/-- The components of the entries of a note. -/
def entriesComponents (p : Position) (file line : Text) : List Component :=
  entryComponents p "filename".toList file
    ++ entryComponents (p.after (entryText "filename".toList file)) "line".toList line

/-- The components of a note. -/
def noteComponents (p : Position) (file line : Text) : List Component :=
  headingComponents p ++ [.block (p.after heading) .curly
    (entriesComponents ((p.after heading).after ['{']) file line)]

/-- **A note is closed.**  What follows it is read as if the note were not there. -/
theorem IsKept.lexes_note {file line : Text} (hfile : IsKept file) (hline : IsKept line)
    (p : Position) (rest : Text) : Lexes p (noteText file line) (noteComponents p file line) rest := by
  have hentry := @IsKept.lexes_entry "filename".toList file hfile rfl ((p.after heading).after ['{'])
    (entryText "line".toList line ++ '}' :: rest)
  have hinside := hentry.append (hline.lexes_entry rfl _ ('}' :: rest))
  exact (lexes_heading p _).append hinside.braces

end Location

/-! ## Reading a note -/

/-- The node is a rule for a key, with the value as an identifier in its one declaration; an
empty value has none. -/
def Node.IsEntry (key value : Text) (node : Node) : Prop :=
  ∃ (rule : Rule) (children : List Node), node = .rule rule children ∧ rule.lines = [key]
    ∧ if value = [] then children = [] else ∃ d : Declaration, children = [.declaration d]
      ∧ d.name = "font-family".toList ∧ d.important = false
      ∧ Component.ofText (normalizeNewlines d.value) = [.leaf {} (.ident value)]

/-- The text is read as one directive, with an entry for the file and one for the line. -/
def SourceNote.Locates (path : Option Text) (note file line : Text) : Prop :=
  ∃ (d : Directive) (first second : Node),
    Sheet.read path note = .ok { path, children := [.block d [first, second]] }
      ∧ d.value = "@media -sass-debug-info".toList
      ∧ first.IsEntry "filename".toList file ∧ second.IsEntry "line".toList line

/-- The note ends its line, and whatever follows it is read as if the note were not there. -/
def SourceNote.IsClosed (note : Text) : Prop :=
  ∃ body, normalizeNewlines note = body ++ ['\n']
    ∧ ∀ p rest, ∃ components, Lexes p body components rest

namespace Location

section Read

variable {path : Option Text} {full pre key value rest : Text}

/-- A word that a block follows is read as a rule with this word for its selectors. -/
theorem readPrelude_word (hkey : Text.isPlainWord key = true)
    (htext : (Source.ofText path full).text = pre ++ key ++ rest) :
    readPrelude (Source.ofText path full) [.leaf (Position.behind pre) (.ident key)]
        ((Position.behind pre).after key)
      = .ok (.rule { lines := [key], origin := ⟨some (Position.behind pre).line, path⟩ }) := by
  have htrimmed := Text.trimmed_of_isPlainWord hkey
  have hlower := (Text.isPlainWord_iff.1 hkey).2
  -- the word is what is cut out of the source, and it is the only line of it
  have htextOf := @textOf_slice path full pre key [] rest [.leaf (Position.behind pre) (.ident key)]
    (by rwa [List.append_nil]) htrimmed (fun c hc => Text.isWritten_of_isLower (hlower c hc))
    Spacing.nil rfl
  have hnewline : '\n' ∉ key := fun hmem => absurd (hlower '\n' hmem) (by decide)
  have hstrip : Component.strip [.leaf (Position.behind pre) (.ident key)]
      = [.leaf (Position.behind pre) (.ident key)] := rfl
  rw [List.append_nil, Position.behind_append] at htextOf
  have hlines : selectorLines key = [key] := by
    rw [selectorLines, strippedLines_single hnewline htrimmed.strip_eq htrimmed.ne_nil]
    rfl
  have hne : selectorLines key ≠ [] := by
    rw [hlines]
    exact List.cons_ne_nil key []
  rw [← htextOf] at hne
  rw [readPrelude_rule _ hstrip rfl hne, htextOf, hlines]
  rfl

/-- What stands between the braces of an entry is read as its one declaration. -/
theorem readContent_inside (source : Source) (p : Position)
    (hgraphic : ∀ c ∈ value, Text.isGraphic c = true) :
    ∃ children, readContent source [] (insideComponents p value) = .ok children
      ∧ ∀ rule : Rule, rule.lines = [key] → (Node.rule rule children).IsEntry key value := by
  unfold insideComponents
  split
  · next hnil => exact ⟨[], rfl, fun rule hrule => ⟨rule, [], rfl, hrule, by rw [if_pos hnil]⟩⟩
  · next hne =>
    have hinert : ∀ c ∈ declarationComponents p value, Inert c := by
      simp only [declarationComponents, List.forall_mem_cons]
      exact ⟨inert_ident _ _, inert_leaf rfl (by decide), inert_ident _ _, List.forall_mem_nil _⟩
    have hprint : ∀ q, printAll [.leaf q (.ident value)] = printIdent value :=
      fun q => List.append_nil (printIdent value)
    have hread : readStatement source (declarationComponents p value) none
        = .ok [.declaration ⟨property, Text.strip (printIdent value), false,
          ⟨some p.line, source.path⟩⟩] := by
      rw [← hprint ((p.after property).after [':'])]
      rfl
    -- what is stored is the printed value without the blanks at its ends
    have hnul : '\x00' ∉ value := fun hmem => absurd (hgraphic '\x00' hmem) (by decide)
    have hvalue := ofText_strip_printIdent (Text.trimmed_of_isGraphic hne hgraphic) hnul
    rw [readContent_end hinert, hread]
    refine ⟨_, rfl, fun rule hrule => ⟨rule, _, rfl, hrule, ?_⟩⟩
    rw [if_neg hne]
    exact ⟨_, rfl, rfl, rfl, hvalue⟩

/-- **An entry is read back in its place.** -/
theorem read_entry (hkey : Text.isPlainWord key = true)
    (hgraphic : ∀ c ∈ value, Text.isGraphic c = true)
    (htext : (Source.ofText path full).text = pre ++ key ++ rest) :
    ∃ node : Node, node.IsEntry key value ∧ ∀ components nodes,
      readContent (Source.ofText path full) [] components = .ok nodes →
      readContent (Source.ofText path full) []
        (entryComponents (Position.behind pre) key value ++ components) = .ok (node :: nodes) := by
  obtain ⟨children, hinside, hentry⟩ := @readContent_inside key value (Source.ofText path full)
    (((Position.behind pre).after key).after ['{']) hgraphic
  refine ⟨.rule { lines := [key], origin := ⟨some (Position.behind pre).line, path⟩ } children,
    hentry _ rfl, fun components nodes hread => ?_⟩
  exact readContent_block (List.forall_mem_singleton.2 (inert_ident _ _))
    (readPrelude_word hkey htext) hinside hread

/-- The heading of a note is read as a directive. -/
theorem readPrelude_heading (htext : (Source.ofText path full).text = heading ++ rest) :
    readPrelude (Source.ofText path full) (headingComponents {}) (Position.behind heading)
      = .ok (.directive { value := heading, origin := ⟨some 1, path⟩ }) := by
  have hslice := @Source.slice_after path full [] heading rest htext
  have htextOf : (Source.ofText path full).textOf (headingComponents {})
      (some (Position.behind heading)) = Text.strip (removeComments heading) :=
    congrArg (fun t => Text.strip (removeComments t)) hslice
  have hvalue : (Source.ofText path full).directiveValue (headingComponents {})
      (some (Position.behind heading)) = heading := by
    rw [Source.directiveValue, htextOf]
    decide +kernel
  rw [readPrelude_directive _ rfl rfl]
  exact congrArg (fun value => Except.ok (Prelude.directive ⟨value, ⟨some 1, path⟩⟩)) hvalue

end Read

/-! ## Notes that are read back -/

section Note

variable {file line : Text}

theorem isPrintable_entryText {key value : Text} (hkey : ∀ c ∈ key, Text.isPrintable c = true)
    (hgraphic : ∀ c ∈ value, Text.isGraphic c = true) :
    ∀ c ∈ entryText key value, Text.isPrintable c = true := by
  have hspelling : ∀ c ∈ ({ name := property, value := identifier value } : Declaration).spelling [],
      Text.isPrintable c = true := by
    simp only [Declaration.spelling, List.forall_mem_append, List.forall_mem_cons]
    exact ⟨⟨⟨List.all_eq_true.1 rfl, rfl, List.forall_mem_nil _⟩, isPrintable_identifier hgraphic⟩,
      List.forall_mem_nil _⟩
  have hinside : ∀ c ∈ insideOf value, Text.isPrintable c = true := by
    unfold insideOf
    split
    · exact List.forall_mem_nil _
    · exact fun c hc => hspelling c ((Declaration.clipped_prefix _).subset hc)
  simp only [entryText, List.forall_mem_append, List.forall_mem_cons]
  exact ⟨⟨hkey, rfl, hinside⟩, rfl, List.forall_mem_nil _⟩

/-- A note is its own normal form. -/
theorem normalizeNewlines_note (hfile : ∀ c ∈ file, Text.isGraphic c = true)
    (hline : ∀ c ∈ line, Text.isGraphic c = true) :
    normalizeNewlines (noteText file line ++ ['\n']) = noteText file line ++ ['\n'] := by
  have hnote : ∀ c ∈ noteText file line, Text.isPrintable c = true := by
    simp only [noteText, List.forall_mem_append, List.forall_mem_cons]
    exact ⟨List.all_eq_true.1 rfl, ⟨rfl, isPrintable_entryText (List.all_eq_true.1 rfl) hfile,
      isPrintable_entryText (List.all_eq_true.1 rfl) hline⟩, rfl,
      List.forall_mem_nil _⟩
  refine normalizeNewlines_eq_self (List.forall_mem_append.2 ⟨fun c hc => ?_,
    List.forall_mem_singleton.2 rfl⟩)
  exact Text.isNormal_of_isPrintable (hnote c hc)

/-- **A note is read as one directive with two entries.** -/
theorem IsKept.read_note (hfile : IsKept file) (hline : IsKept line) (path : Option Text) :
    SourceNote.Locates path (noteText file line ++ ['\n']) file line := by
  have htext : (Source.ofText path (noteText file line ++ ['\n'])).text = noteText file line ++ ['\n'] :=
    normalizeNewlines_note hfile.graphic hline.graphic
  have hparse : Component.parse (Source.ofText path (noteText file line ++ ['\n'])).text
      = .ok (noteComponents {} file line
        ++ spaceComponents (Position.behind (noteText file line)) ['\n']) := by
    have hnewline := @lexes_spaces (Position.behind (noteText file line)) ['\n'] []
      (List.forall_mem_singleton.2 rfl) rfl
    rw [htext]
    exact ((hfile.lexes_note hline {} (['\n'] ++ [])).append hnewline).parse
  -- the entries, one behind the other
  have hafterFile : (Source.ofText path (noteText file line ++ ['\n'])).text
      = heading ++ ['{'] ++ entryText "filename".toList file ++ "line".toList
        ++ ('{' :: insideOf line ++ ['}', '}', '\n']) := by
    rw [htext]
    simp [noteText, entryText]
  have hbeforeFile : (Source.ofText path (noteText file line ++ ['\n'])).text
      = heading ++ ['{'] ++ "filename".toList
        ++ ('{' :: insideOf file ++ '}' :: entryText "line".toList line ++ ['}', '\n']) := by
    rw [htext]
    simp [noteText, entryText]
  obtain ⟨first, hfirst, hreadFirst⟩ := @read_entry path _ _ "filename".toList file _ rfl hfile.graphic
    hbeforeFile
  obtain ⟨second, hsecond, hreadSecond⟩ := @read_entry path _ _ "line".toList line _ rfl hline.graphic
    hafterFile
  have hentries := hreadFirst _ _ (hreadSecond [] [] rfl)
  rw [List.append_nil, Position.behind_append _ (entryText _ _), Position.behind_append,
    ← entriesComponents] at hentries
  have hinert : ∀ c ∈ headingComponents {}, Inert c := by
    simp only [headingComponents, List.forall_mem_cons]
    exact ⟨inert_atKeyword _ _, inert_leaf rfl (by decide), inert_ident _ _, List.forall_mem_nil _⟩
  have hheading := @readPrelude_heading path (noteText file line ++ ['\n']) _
    (htext.trans (List.append_assoc ..))
  -- the newline behind the block is no statement
  have hend := (readContent_end (inert_spaceComponents (Position.behind (noteText file line)) ['\n'])).trans
    (readStatement_spaces (Source.ofText path (noteText file line ++ ['\n'])) _ _ none)
  have hnodes : readContent (Source.ofText path (noteText file line ++ ['\n'])) []
      (noteComponents {} file line ++ spaceComponents (Position.behind (noteText file line)) ['\n'])
        = .ok [.block ⟨heading, ⟨some 1, path⟩⟩ [first, second]] := by
    rw [noteComponents, List.append_assoc, ← Position.behind]
    exact readContent_block hinert hheading hentries hend
  have hread : Sheet.read path (noteText file line ++ ['\n'])
      = .ok { path, children := [.block ⟨heading, ⟨some 1, path⟩⟩ [first, second]] } :=
    Sheet.read_eq_ok.2 ⟨_, _, hparse, hnodes, rfl, rfl⟩
  exact ⟨⟨heading, ⟨some 1, path⟩⟩, first, second, hread, rfl, hfirst, hsecond⟩

/-! ## A semicolon at the end -/

/-- The semicolon at the end of a value is cut off, and its backslash is left. -/
theorem insideOf_semicolon {t : Text} (hne : t ≠ []) :
    insideOf (t ++ [';']) = property ++ ':' :: (identifier t ++ ['\\']) := by
  have hvalue : identifier (t ++ [';']) = identifier t ++ ['\\', ';'] := identifier_append hne [';']
  have hspelling : ({ name := property, value := identifier (t ++ [';']) } : Declaration).spelling []
      = property ++ ':' :: (identifier t ++ ['\\']) ++ [';'] := by
    rw [hvalue, Declaration.spelling]
    simp
  rw [insideOf, if_neg (by simp), Declaration.clipped, hspelling, Text.dropEndWhile_concat rfl]
  simp [Text.dropEndWhile]

/-- The backslash takes the brace behind it, and the entry goes on with the next one. -/
theorem noteText_semicolon {t : Text} (hne : t ≠ []) (line : Text) :
    noteText (t ++ [';']) line ++ ['\n'] = heading ++ ('{' :: ("filename".toList
      ++ ('{' :: (property ++ ':' :: identifier (t ++ "\x7dline".toList)
        ++ ('{' :: insideOf line ++ ['}'])) ++ ['}']) ++ ['\n'])) := by
  have hvalue : identifier (t ++ "\x7dline".toList) = identifier t ++ '\\' :: '}' :: "line".toList :=
    identifier_append hne "\x7dline".toList
  rw [hvalue, noteText, entryText, entryText, insideOf_semicolon hne]
  simp

/-- The components of such a note: the block of its heading holds a single rule, and is not
closed. -/
theorem ofText_semicolon {t line : Text} (hgraphic : ∀ c ∈ t, Text.isGraphic c = true) (hne : t ≠ [])
    (hline : IsKept line) : ∃ p q r s u v w, Component.ofText (noteText (t ++ [';']) line ++ ['\n'])
      = headingComponents {} ++ [.block p .curly ([.leaf q (.ident "filename".toList),
        .block r .curly (declarationComponents s (t ++ "\x7dline".toList)
          ++ [.block u .curly (insideComponents v line)])] ++ spaceComponents w ['\n'])] := by
  have hswallowed : ∀ c ∈ t ++ "\x7dline".toList, Text.isGraphic c = true :=
    List.forall_mem_append.2 ⟨hgraphic, List.all_eq_true.1 rfl⟩
  have hword : IsName "filename".toList := ⟨rfl, List.all_eq_true.1 rfl⟩
  let p := ({} : Position).after heading
  let q := p.after ['{']
  let r := q.after "filename".toList
  let s := r.after ['{']
  let u := s.after (property ++ ':' :: identifier (t ++ "\x7dline".toList))
  -- from the inside outwards: the line, the declaration that takes it in, the one entry
  have hinner := (hline.lexes_inside (u.after ['{']) ('}' :: '\n' :: [])).braces
  have hdeclaration := @lexes_declaration _ ('{' :: insideOf line ++ ['}'] ++ '}' :: '\n' :: [])
    hswallowed (by simp) rfl s
  have hentry := (@lexes_word _ ('{' :: _ ++ ['}'] ++ '\n' :: []) hword rfl q).append
    (hdeclaration.append hinner).braces
  have hblock := hentry.append (@lexes_spaces _ ['\n'] [] (List.forall_mem_singleton.2 rfl) rfl)
  have hall := (lexes_heading {} _).append hblock.unclosed
  rw [noteText_semicolon hne]
  exact ⟨_, _, _, _, _, _, _, hall.ofText⟩

/-- The components between the braces of an entry are one clause, if there are any. -/
theorem length_clauses_inside (p : Position) (value : Text) :
    (clauses [] (insideComponents p value)).length = if value = [] then 0 else 1 := by
  unfold insideComponents
  split <;> simp [declarationComponents, clauses, clausesEndedBy, clauseOf, Component.strip, isWhitespace]

/-- There is a clause for each of the three blocks around the line. -/
theorem length_clauses_semicolon (p q r s u w : Position) (value : Text) (inside : List Component) :
    (clauses [] (headingComponents {} ++ [.block p .curly ([.leaf q (.ident "filename".toList),
      .block r .curly (declarationComponents s value ++ [.block u .curly inside])]
        ++ spaceComponents w ['\n'])])).length = 3 + (clauses [] inside).length := by
  simp [headingComponents, declarationComponents, spaceComponents, clauses, clausesEndedBy, clauseOf,
    Component.strip, List.dropWhile, isWhitespace]
  omega

/-- **A semicolon at the end of the file loses the note.**  What is read has one entry with
another block inside, and not two of them. -/
theorem not_locates_semicolon {t line : Text} (hgraphic : ∀ c ∈ t, Text.isGraphic c = true)
    (hne : t ≠ []) (hline : IsKept line) (path : Option Text) :
    ¬ SourceNote.Locates path (noteText (t ++ [';']) line ++ ['\n']) (t ++ [';']) line := by
  rintro ⟨d, _, _, hread, -, ⟨r, children, rfl, -, hchildren⟩, ⟨r', children', rfl, -, hchildren'⟩⟩
  have htext : (Source.ofText path (noteText (t ++ [';']) line ++ ['\n'])).text
      = noteText (t ++ [';']) line ++ ['\n'] :=
    normalizeNewlines_note (List.forall_mem_append.2 ⟨hgraphic, List.forall_mem_singleton.2 rfl⟩)
      hline.graphic
  -- there is one clause less than there would have to be nodes
  have hlength := (Sheet.read_clauses hread).length_eq
  obtain ⟨p, q, r, s, u, v, w, hcomponents⟩ := ofText_semicolon hgraphic hne hline
  rw [if_neg (by simp)] at hchildren
  obtain ⟨d', rfl, -⟩ := hchildren
  rw [htext, hcomponents, length_clauses_semicolon, length_clauses_inside] at hlength
  split at hchildren'
  · next hempty =>
    rw [if_pos hempty, hchildren'] at hlength
    simp [Node.inOrderOf, Node.inOrder] at hlength
  · next hne =>
    obtain ⟨d'', rfl, -⟩ := hchildren'
    rw [if_neg hne] at hlength
    simp [Node.inOrderOf, Node.inOrder] at hlength

end Note

/-! ## The note of a rule -/

theorem isKept_lineText (origin : Origin) : IsKept (lineText origin) where
  graphic := isGraphic_lineText origin
  last := by
    unfold lineText
    split
    · exact fun hlast => absurd (Text.ofInt_chars _ _ (List.mem_of_getLast? hlast)) (by decide)
    · exact fun hlast => absurd hlast (by decide)

/-- A URI that ends with a semicolon has something before it. -/
theorem exists_fileUri {directory : Text} {origin : Origin}
    (h : (fileUri directory origin).getLast? = some ';') :
    ∃ t, t ≠ [] ∧ fileUri directory origin = t ++ [';'] := by
  obtain ⟨t, ht⟩ := List.getLast?_eq_some_iff.1 h
  refine ⟨t, ?_, ht⟩
  rintro rfl
  unfold fileUri at ht
  split at ht <;> cases ht

/-- **The note of a rule says where the rule is** exactly if the URI of its file does not end
with a semicolon. -/
theorem locates_structuredOf (options : Options) (rule : Rule) (path : Option Text) :
    SourceNote.Locates path (SourceNote.structuredOf options rule)
        (fileUri options.directory rule.origin) (lineText rule.origin)
      ↔ (fileUri options.directory rule.origin).getLast? ≠ some ';' := by
  have hgraphic := isGraphic_fileUri options.directory rule.origin
  have hline := isKept_lineText rule.origin
  rw [structuredOf_eq]
  constructor
  · intro hlocates hlast
    obtain ⟨t, hne, ht⟩ := exists_fileUri hlast
    rw [ht] at hgraphic hlocates
    exact not_locates_semicolon (List.forall_mem_append.1 hgraphic).1 hne hline path hlocates
  · intro hlast
    exact IsKept.read_note ⟨hgraphic, hlast⟩ hline path

theorem isClosed_structuredOf {options : Options} {rule : Rule}
    (h : (fileUri options.directory rule.origin).getLast? ≠ some ';') :
    SourceNote.IsClosed (SourceNote.structuredOf options rule) := by
  have hfile : IsKept (fileUri options.directory rule.origin) := ⟨isGraphic_fileUri _ _, h⟩
  have hline := isKept_lineText rule.origin
  rw [structuredOf_eq]
  exact ⟨_, normalizeNewlines_note hfile.graphic hline.graphic,
    fun p rest => ⟨_, hfile.lexes_note hline p rest⟩⟩

end Location

/-! ## Both kinds of notes -/

/-- **Notes are self-contained, apart from two kinds of file names.**  The comment before a
rule is one comment exactly if the name of the file, as it is shown, has no end of a comment
in it.  The directive before a rule is read as one directive with an entry for the file and
one for the line, which have the values of the location as identifiers, exactly if the URI of
the file does not end with a semicolon.  Both are then closed: they leave what follows them
as it is. -/
theorem notes_self_contained (options : Options) (rule : Rule) (depth : Int) (path : Option Text) :
    let comment := ({ options with note := .comment } : Options).annotate rule depth
    let structured := ({ options with note := .structured } : Options).annotate rule depth
    let file := Location.fileUri options.directory rule.origin
    (IsOneComment (normalizeNewlines comment) ↔ ¬ ['*', '/'] <:+: SourceNote.fileOf options rule)
      ∧ (¬ ['*', '/'] <:+: SourceNote.fileOf options rule → SourceNote.IsClosed comment)
      ∧ (SourceNote.Locates path structured file (Location.lineText rule.origin)
        ↔ file.getLast? ≠ some ';')
      ∧ (file.getLast? ≠ some ';' → SourceNote.IsClosed structured) := by
  intro comment structured file
  rw [← afterCommentEnd?_eq_none]
  refine ⟨SourceNote.isOneComment_commentOf _ rule depth, fun h => ?_,
    Location.locates_structuredOf _ rule path, fun h => Location.isClosed_structuredOf h⟩
  obtain ⟨body, hbody, hlexes⟩ := @SourceNote.lexes_commentOf { options with note := .comment } rule depth h
  exact ⟨body, hbody, fun p rest => ⟨_, hlexes p rest⟩⟩

/-- A file with a semicolon, a star and a slash, none of which is in the way. -/
theorem notes_self_contained_marked :
    let options : Options := { directory := "/work".toList }
    let rule : Rule := { origin := ⟨some 7, some "a;*b/c".toList⟩ }
    IsOneComment (normalizeNewlines (({ options with note := .comment } : Options).annotate rule 2))
      ∧ SourceNote.IsClosed (({ options with note := .comment } : Options).annotate rule 2)
      ∧ SourceNote.Locates none (({ options with note := .structured } : Options).annotate rule 2)
        "file:///work/a;*b/c".toList ['7']
      ∧ SourceNote.IsClosed (({ options with note := .structured } : Options).annotate rule 2) := by
  intro options rule
  have hfile : Location.fileUri options.directory rule.origin = "file:///work/a;*b/c".toList := by
    decide +kernel
  have hshown : ¬ ['*', '/'] <:+: SourceNote.fileOf options rule := by decide
  have hlast : (Location.fileUri options.directory rule.origin).getLast? ≠ some ';' := by
    rw [hfile]
    decide
  obtain ⟨hcomment, hclosed, hlocates, hclosed'⟩ := notes_self_contained options rule 2 none
  exact ⟨hcomment.2 hshown, hclosed hshown, hfile ▸ hlocates.2 hlast, hclosed' hlast⟩

/-- The end of a comment in the name of a file ends the comment of the note, and a semicolon at
the end of the name takes the braces of the directive away, so that it goes on with the rule
that follows it. -/
theorem notes_not_self_contained :
    let options : Options := { directory := "/work".toList }
    let comment := ({ options with note := .comment } : Options).annotate
      { origin := ⟨some 1, some "a*/".toList⟩ } 1
    let structured := ({ options with note := .structured } : Options).annotate
      { origin := ⟨some 1, some "a;".toList⟩ } 1
    ¬ IsOneComment (normalizeNewlines comment)
      ∧ ¬ SourceNote.Locates none structured "file:///work/a;".toList ['1']
      ∧ (Component.ofText (structured ++ "p\x7b\x7d".toList)).length
        = (Component.ofText structured).length := by
  intro options comment structured
  have hstructured : structured = ("@media -sass-debug-info\x7bfilename\x7bfont-family:file"
      ++ "\\:\\/\\/\\/work\\/a\\\x7dline\x7bfont-family:\\0031 \x7d\x7d\n").toList := by
    decide +kernel
  refine ⟨?_, ?_, ?_⟩
  · exact mt (SourceNote.isOneComment_commentOf { options with note := .comment }
      { origin := ⟨some 1, some "a*/".toList⟩ } 1).1 (by decide)
  · have hfile : Location.fileUri options.directory ⟨some 1, some "a;".toList⟩
        = "file:///work/a;".toList := by decide +kernel
    have hiff := Location.locates_structuredOf { options with note := .structured }
      { origin := ⟨some 1, some "a;".toList⟩ } none
    rw [hfile] at hiff
    exact mt hiff.1 (by decide)
  · rw [hstructured]
    decide +kernel

end NestedSheet
