import NestedSheet.Text.Basic

/-!
# Paths

Paths are texts whose parts are divided by slashes.  The normal form of a path
has no empty part and no part `.`, and a part `..` takes back the part before
it: such parts stay only at the front of a relative path, and at the root they
are dropped.  Two slashes at the start are kept; three or more are one.

Main facts: the parts of a normal form are in normal form (`normalParts_normal`),
and common parts at the front are taken off both lists (`dropCommon_append`).
-/

namespace NestedSheet.Path

/-- A path that starts at the root. -/
def isAbsolute (path : Text) : Bool :=
  path.head? == some '/'

/-- The part that stays in place. -/
def here : Text := ['.']

/-- The part that goes up. -/
def up : Text := ['.', '.']

/-! ## Normal form -/

/-- One more part on a stack of parts, the latest first. -/
def push (absolute : Bool) (stack : List Text) (part : Text) : List Text :=
  if part = [] ∨ part = here then stack
  else if part = up then
    match stack with
    | [] => if absolute then [] else [up]
    | last :: rest => if last = up then up :: stack else rest
  else part :: stack

/-- The parts of the normal form of a path with these parts. -/
def normalParts (absolute : Bool) (parts : List Text) : List Text :=
  (parts.foldl (push absolute) []).reverse

/-- The slashes that the normal form of a path starts with. -/
def rootSlashes (path : Text) : Text :=
  match path with
  | '/' :: '/' :: '/' :: _ => ['/']
  | '/' :: '/' :: _ => ['/', '/']
  | '/' :: _ => ['/']
  | _ => []

/-- The normal form of a path; a path without parts is `.`. -/
def normalize (path : Text) : Text :=
  let normal := rootSlashes path
    ++ ['/'].intercalate (normalParts (isAbsolute path) (Text.cut '/' path))
  if normal.isEmpty then here else normal

/-- A stack of parts, the latest first, is in normal form: no part is empty or
`.`, and `..` stands only at the front of a relative path. -/
def NormalStack (absolute : Bool) (stack : List Text) : Prop :=
  ∃ names ups : List Text, stack = names ++ ups
    ∧ (∀ part ∈ names, part ≠ [] ∧ part ≠ here ∧ part ≠ up)
    ∧ (∀ part ∈ ups, part = up) ∧ (absolute = true → ups = [])

theorem push_normal {absolute : Bool} {stack : List Text} (part : Text)
    (h : NormalStack absolute stack) : NormalStack absolute (push absolute stack part) := by
  obtain ⟨names, ups, rfl, hnames, hups, habs⟩ := h
  unfold push
  split
  · exact ⟨names, ups, rfl, hnames, hups, habs⟩
  · next hpart =>
    split
    · next hup =>
      subst hup
      cases names with
      | nil =>
        cases ups with
        | nil =>
          cases absolute with
          | true => exact ⟨[], [], rfl, by simp, by simp, fun _ => rfl⟩
          | false => exact ⟨[], [up], rfl, by simp, by simp, by simp⟩
        | cons first rest =>
          have hfirst : first = up := hups first (by simp)
          refine ⟨[], up :: first :: rest, by simp [hfirst], by simp, ?_, ?_⟩
          · intro part hpart
            rcases List.mem_cons.1 hpart with rfl | hmem
            · rfl
            · exact hups part hmem
          · intro ha
            exact absurd (habs ha) (by simp)
      | cons name names =>
        have hname := hnames name (by simp)
        refine ⟨names, ups, by simp [hname.2.2], fun part hp => hnames part (by simp [hp]), hups,
          habs⟩
    · next hup =>
      refine ⟨part :: names, ups, rfl, ?_, hups, habs⟩
      intro p hp
      rcases List.mem_cons.1 hp with rfl | hmem
      · exact ⟨fun h => hpart (Or.inl h), fun h => hpart (Or.inr h), hup⟩
      · exact hnames p hmem

/-- The parts of a normal form, the last one first, are in normal form. -/
theorem normalParts_normal (absolute : Bool) (parts : List Text) :
    NormalStack absolute (normalParts absolute parts).reverse := by
  have go : ∀ (parts stack : List Text), NormalStack absolute stack →
      NormalStack absolute (parts.foldl (push absolute) stack) := by
    intro parts
    induction parts with
    | nil => exact fun stack h => h
    | cons part parts ih => exact fun stack h => ih _ (push_normal part h)
  rw [normalParts, List.reverse_reverse]
  exact go parts [] ⟨[], [], rfl, by simp, by simp, fun _ => rfl⟩

/-! ## Absolute and relative paths -/

/-- A path below a directory; an absolute path does not depend on it. -/
def below (directory path : Text) : Text :=
  if isAbsolute path then path
  else if directory.isEmpty || directory.endsWith '/' then directory ++ path
  else directory ++ '/' :: path

/-- The normal form of a path that starts from `directory`. -/
def absolute (directory path : Text) : Text :=
  normalize (below directory path)

/-- The parts of a path that are not empty. -/
def parts (path : Text) : List Text :=
  (Text.cut '/' path).filter fun part => !part.isEmpty

/-- Takes the common parts off the front of two lists. -/
def dropCommon : List Text → List Text → List Text × List Text
  | a :: as, b :: bs => if a = b then dropCommon as bs else (a :: as, b :: bs)
  | as, bs => (as, bs)

/-- The parts that are taken off are the same at the front of both lists. -/
theorem dropCommon_append (as bs : List Text) :
    ∃ common, as = common ++ (dropCommon as bs).1 ∧ bs = common ++ (dropCommon as bs).2 := by
  fun_induction dropCommon as bs with
  | case1 as part bs ih =>
    obtain ⟨common, ha, hb⟩ := ih
    exact ⟨part :: common, by rw [List.cons_append, ← ha], by rw [List.cons_append, ← hb]⟩
  | case2 a as b bs _ => exact ⟨[], rfl, rfl⟩
  | case3 as bs _ => exact ⟨[], rfl, rfl⟩

/-- The way from a base to a path: up from what only the base has, then down to
what only the path has. -/
def relative (directory path base : Text) : Text :=
  let rest := dropCommon (parts (absolute directory base)) (parts (absolute directory path))
  let steps := rest.1.map (fun _ => up) ++ rest.2
  if steps.isEmpty then here else ['/'].intercalate steps

/-- A file name as it is shown: relative to the base if there is one and both
are absolute or both are relative, and otherwise as it is. -/
def shown (directory : Text) (base : Option Text) (path : Text) : Text :=
  match base with
  | none => path
  | some base =>
    if base.isEmpty || path.isEmpty || isAbsolute path != isAbsolute base then path
    else relative directory path base

/-- The directory of a path: what stands before its last slash, without further
slashes at its end unless there is nothing else. -/
def dirname (path : Text) : Text :=
  let head := Text.dropEndWhile (· != '/') path
  let trimmed := Text.dropEndWhile (· == '/') head
  if trimmed.isEmpty then head else trimmed

end NestedSheet.Path
