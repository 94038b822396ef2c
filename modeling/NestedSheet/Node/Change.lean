import NestedSheet.Node.Draft

/-!
# Changing a field of a node

A change gives a field of a draft a new value.  A kind of node that does not have
the field cannot take the change.  Every draft has a list of children, which may be
taken away, and an origin.
-/

namespace NestedSheet

/-- A new value for a field of a draft. -/
inductive Change where
  /-- Another list of children, or none. -/
  | children (nodes : Option (List Node))
  | line (line : Option Int)
  | filename (name : Option Text)
  | lines (lines : List Text)
  | parsed (lines : Option (List Selector.Line))
  | resolved (lines : Option Selector.Resolved)
  | depth (depth : Int)
  | groupEnd (isEnd : Bool)
  | name (name : Text)
  | value (value : Text)
  | important (important : Bool)
  | path (path : Option Text)
  /-- A field that no node has. -/
  | unknown (field : Text)

/-- The name of the field that a change is about. -/
def Change.field : Change → Text
  | .children _ => "children".toList
  | .line _ => "line".toList
  | .filename _ => "filename".toList
  | .lines _ => "rules".toList
  | .parsed _ => "parsedRules".toList
  | .resolved _ => "resolvedRules".toList
  | .depth _ => "depth".toList
  | .groupEnd _ => "groupEnd".toList
  | .name _ => "name".toList
  | .value _ => "value".toList
  | .important _ => "important".toList
  | .path _ => "path".toList
  | .unknown field => field

namespace Head

/-- The head with another origin; a sheet keeps no origin of its own. -/
def mapOrigin (f : Origin → Origin) : Head → Head
  | rule r => rule { r with origin := f r.origin }
  | declaration d => declaration { d with origin := f d.origin }
  | directive d => directive { d with origin := f d.origin }
  | sheet path => sheet path

/-- The head after a change, if there is the field. -/
def change (head : Head) (c : Change) : Except EditError Head :=
  match c, head with
  | .line line, _ => .ok (head.mapOrigin fun o => { o with line })
  | .filename filename, _ => .ok (head.mapOrigin fun o => { o with filename })
  | .lines lines, rule r => .ok (rule { r with lines })
  | .parsed parsed, rule r => .ok (rule { r with parsed })
  | .resolved resolved, rule r => .ok (rule { r with resolved })
  | .depth depth, rule r => .ok (rule { r with depth })
  | .groupEnd groupEnd, rule r => .ok (rule { r with groupEnd })
  | .name name, declaration d => .ok (declaration { d with name })
  | .value value, declaration d => .ok (declaration { d with value })
  | .important important, declaration d => .ok (declaration { d with important })
  | .value value, directive d => .ok (directive { d with value })
  | .path path, sheet _ => .ok (sheet path)
  | _, _ => .error (.noField head.kindName c.field)

end Head

namespace Draft

/-- The draft after a change, if there is the field. -/
def change (draft : Draft) (c : Change) : Except EditError Draft :=
  match c with
  | .children nodes => .ok { draft with children := nodes }
  | c => do
    let head ← draft.head.change c
    pure { draft with head }

/-- The draft after several changes, if there are the fields of all of them. -/
def changeAll (draft : Draft) (changes : List Change) : Except EditError Draft :=
  changes.foldlM change draft

end Draft

end NestedSheet
