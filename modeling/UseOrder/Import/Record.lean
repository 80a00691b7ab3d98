import UseOrder.Import.Comments
import UseOrder.Token.Basic

/-!
# Import records

A record is one imported name, or one whole brace group, together with the slot of the token list
that it was cut from.
-/

namespace UseOrder

/-- What an import declares. Without a qualifier it is a class. -/
inductive ImportKind
  | constKind
  | classKind
  | functionKind
deriving DecidableEq, Repr

namespace ImportKind

/-- Every kind, in the order of declaration. -/
def all : List ImportKind :=
  [constKind, classKind, functionKind]

/-- The word for a kind. -/
def label : ImportKind → String
  | constKind => "const"
  | classKind => "class"
  | functionKind => "function"

/-- The kind with a word. -/
def ofLabel? (text : String) : Option ImportKind :=
  all.find? (·.label == text)

/-- The kind that the first token of a statement announces. -/
def ofFirst (t : Token) : ImportKind :=
  match t.kind with
  | .constWord => constKind
  | .functionWord => functionKind
  | _ => classKind

/-- The token kind of the qualifier, for the kinds that have one. -/
def qualifierKind? : ImportKind → Option TokenKind
  | constKind => some .constWord
  | classKind => none
  | functionKind => some .functionWord

end ImportKind

/-- One imported name or brace group. -/
structure Record where
  /-- The text after the qualifier, comments included. -/
  name : Text
  kind : ImportKind := .classKind
  /-- The record is a brace group. -/
  grouped : Bool := false
  /-- The first position of the slot. The slot of the first name of a statement begins at the
  qualifier, if there is one. -/
  start : Int := 0
  /-- The last position of the slot; one less than `start` for an empty slot. -/
  last : Int := 0
  /-- The tokens that write `name`. -/
  tokens : List Token := []
  /-- The text of the qualifier, up to the name. Names after a comma have none of their own. -/
  qualifier : Option Text := none
  /-- The text in front of the brace, for a group. -/
  groupPath : Option Text := none
deriving DecidableEq, Repr

/-- The namespace path that the record is sorted by: without comments, and for a group the part in
front of the brace. -/
def Record.path (r : Record) : Text :=
  let raw := if r.grouped then r.groupPath.getD r.name else r.name
  Text.strip (stripComments raw)

end UseOrder
