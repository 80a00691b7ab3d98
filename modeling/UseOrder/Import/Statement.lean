import UseOrder.Import.Group

/-!
# Import statements

A statement runs from its `use` to its terminator, a semicolon or a close tag. Between the two
stands either one brace group, which makes one record, or names with commas between them, which
make one record each. The kind of all of them is announced by the first token.

The slots of the records cover the statement: between two slots there is nothing but commas and
white space, and before the first slot nothing but white space.
-/

namespace UseOrder

/-- The position of the terminator of the statement at `u`. -/
def statementEnd (ts : List Token) (u : Int) : Except Fault Int := do
  match ← nextWhere Token.isTerminator ts u with
  | some e => return e
  | none => throw (.unterminated u)

/-- A name between commas: its first position and its tokens, white space at the end included. -/
structure NamePart where
  start : Int
  tokens : List Token
deriving DecidableEq, Repr

/-- The names of a comma list. `pos` is the position of the first token; `current` is the name that
has been started, if one has. After a comma, white space and further commas belong to no name. -/
def namePartsFrom (pos : Int) (current : Option NamePart) : List Token → List NamePart
  | [] => current.toList
  | t :: rest =>
    match current with
    | some part =>
      if t.isComma then part :: namePartsFrom (pos + 1) none rest
      else namePartsFrom (pos + 1) (some { part with tokens := part.tokens ++ [t] }) rest
    | none =>
      if t.isComma || t.isWhitespace then namePartsFrom (pos + 1) none rest
      else namePartsFrom (pos + 1) (some ⟨pos, [t]⟩) rest

/-- What all records of a statement share. -/
structure StatementHead where
  kind : ImportKind
  /-- The position of the first token after the `use` that is no white space. -/
  start : Int
  qualifier : Option Text
deriving DecidableEq, Repr

/-- The record of a name. The first one takes the qualifier, and its slot begins there. -/
def NamePart.record (head : StatementHead) (first : Bool) (part : NamePart) : Record :=
  let tokens := trimEnd part.tokens
  { name := textOf tokens
    kind := head.kind
    grouped := false
    start := if first then head.start else part.start
    last := part.start + tokens.length - 1
    tokens := tokens
    qualifier := if first then head.qualifier else none
    groupPath := none }

/-- The records of a comma list whose first token is at `pos`. -/
def nameRecords (head : StatementHead) (pos : Int) (names : List Token) : List Record :=
  match namePartsFrom pos (some ⟨pos, []⟩) names with
  | [] => []
  | first :: others =>
    first.record head true :: others.map (NamePart.record head false)

/-- The record of a brace group whose first token is at `pos`. -/
def groupRecord (settings : Settings) (head : StatementHead) (pos : Int) (body : List Token) :
    Except Fault Record := do
  let source := trimEnd body
  let some openAt := source.findIdx? (·.kind == .groupOpen) | throw .unopenedGroup
  let closeAt := (lastIndex? (·.kind == .groupClose) source).getD 0
  -- by whatever algorithm records are sorted, the names inside the braces are sorted by text
  let tokens :=
    if settings.algorithm == .unsorted then source
    else (sortGroup? settings.layout source openAt closeAt).getD source
  return {
    name := textOf tokens
    kind := head.kind
    grouped := true
    start := head.start
    last := pos + source.length - 1
    tokens := tokens
    qualifier := head.qualifier
    groupPath := some (textOf (tokens.take openAt)) }

/-- The statement ends with the closing brace of a group. -/
def endsGroup (ts : List Token) (stop : Int) : Except Fault Bool := do
  match ← previousMeaningful ts stop with
  | some i => return (← tokenAt ts i).kind == .groupClose
  | none => return false

/-- The number of tokens that the qualifier takes, with the white space after it. -/
def qualifierSize (kind : ImportKind) (fromStart : List Token) : Nat :=
  if kind == .classKind then 0
  else 1 + ((fromStart.drop 1).takeWhile Token.isWhitespace).length

/-- The records of the statement at `u`. -/
def parseStatement (settings : Settings) (ts : List Token) (u : Int) :
    Except Fault (List Record) := do
  let after ← tokensAfter ts u
  let some size := after.findIdx? Token.isTerminator | throw (.unterminated u)
  let body := after.take size
  let stop := u + 1 + size
  let leading := (body.takeWhile Token.isWhitespace).length
  let fromStart := body.drop leading
  let some first := fromStart.head? | return []
  let kind := ImportKind.ofFirst first
  let start := u + 1 + leading
  let pathAt := start + qualifierSize kind fromStart
  -- A path at position zero can only be reached from below zero, and counts as missing.
  let pathStart := if kind != .classKind && pathAt == 0 then stop else pathAt
  let qualifier := if kind == .classKind then none else some (textOf (slice ts start pathStart))
  let head : StatementHead := ⟨kind, start, qualifier⟩
  let names := body.drop (pathStart - (u + 1)).toNat
  if ← endsGroup ts stop then
    return [← groupRecord settings head pathStart names]
  else
    return nameRecords head pathStart names

/-- The records of several statements, in order. -/
def parseStatements (settings : Settings) (ts : List Token) (uses : List Int) :
    Except Fault (List Record) := do
  return (← uses.mapM (parseStatement settings ts)).flatten

end UseOrder
