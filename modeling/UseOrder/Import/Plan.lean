import UseOrder.Import.Group
import UseOrder.Import.Order
import UseOrder.Token.Position

/-!
# Writing records into slots

The records of a sub-group are written, in their new order, into the slots that they were cut
from. A record that lands after a comma continues the statement if it is of the same kind and
neither it nor the statement is a brace group; otherwise the comma becomes a semicolon and the
record starts a statement of its own, on a new line with the indentation of the old one.
-/

namespace UseOrder

/-- A replacement of the tokens from `start` up to and without `stop`. -/
structure Edit where
  start : Int
  stop : Int
  tokens : List Token
deriving DecidableEq, Repr

/-- The qualifier of a record as tokens: the word, and the white space after it. -/
def qualifierTokens (r : Record) : List Token :=
  match r.kind.qualifierKind? with
  | none => []
  | some kind =>
    -- only the first record of a statement was read with a qualifier
    let text := r.qualifier.getD (r.kind.label.toList ++ [' '])
    let word := Text.stripEnd text
    let gap := text.drop word.length
    ⟨kind, word⟩ :: if gap.isEmpty then [] else [⟨.whitespace, gap⟩]

/-- The indentation of the line that the token at `i` begins; none if it begins no line. -/
def lineIndent (ts : List Token) (i : Int) : Except Fault Text := do
  if i == 0 then return []
  let before ← tokenAt ts (i - 1)
  if before.isWhitespace && before.content.contains '\n' then
    return Text.afterLast '\n' before.content
  else return []

/-- The statement that is being written. -/
structure OpenStatement where
  kind : ImportKind
  grouped : Bool
  indent : Text
deriving DecidableEq, Repr

/-- The record can go on after a comma of the statement. -/
def OpenStatement.accepts (s : OpenStatement) (r : Record) : Bool :=
  r.kind == s.kind && !(r.grouped || s.grouped)

/-- A new statement after the end of the old one: what stands before the record. -/
def newStatement (layout : Layout) (indent : Text) : List Token :=
  [⟨.punct, [';']⟩, ⟨.whitespace, layout.lineEnding.text ++ indent⟩, ⟨.useWord, "use".toList⟩,
    oneSpace]

/-- The meaningful token in front of a slot, with its position. -/
def tokenBefore (ts : List Token) (slot : Record) : Except Fault (Option (Int × Token)) := do
  match ← previousMeaningful ts slot.start with
  | none => pure none
  | some i => pure (some (i, ← tokenAt ts i))

/-- The edit that writes a record into a slot after a comma at `commaAt`, and the statement that it
belongs to; `current` is the statement that the comma belongs to. -/
def continueStatement (layout : Layout) (current : Option OpenStatement) (commaAt : Int)
    (slot record : Record) : Edit × OpenStatement :=
  let indent := (current.map OpenStatement.indent).getD []
  let statement : OpenStatement := ⟨record.kind, record.grouped, indent⟩
  if current.any (·.accepts record) then (⟨slot.start, slot.last + 1, record.tokens⟩, statement)
  else
    -- the comma is written over by the end of the statement
    (⟨commaAt, slot.last + 1,
      newStatement layout indent ++ qualifierTokens record ++ record.tokens⟩, statement)

/-- The edit that writes a record into the first slot of a statement, and the statement. -/
def startStatement (ts : List Token) (useAt : Option Int) (slot record : Record) :
    Except Fault (Edit × OpenStatement) := do
  let indent ← match useAt with
    | some i => lineIndent ts i
    | none => pure []
  pure (⟨slot.start, slot.last + 1, qualifierTokens record ++ record.tokens⟩,
    ⟨record.kind, record.grouped, indent⟩)

/-- The edit that writes a record into a slot, and the statement that it belongs to. -/
def planSlot (layout : Layout) (ts : List Token) (current : Option OpenStatement)
    (slot record : Record) : Except Fault (Edit × OpenStatement) := do
  match ← tokenBefore ts slot with
  | none => startStatement ts none slot record
  | some (i, t) =>
    if t.isComma then pure (continueStatement layout current i slot record)
    -- in front of the first slot of a statement stands its `use`
    else startStatement ts (some i) slot record

/-- The edits that write each record into the slot beside it. `current` is the statement that the
slot before belongs to. -/
def planFrom (layout : Layout) (ts : List Token) (current : Option OpenStatement) :
    List (Record × Record) → Except Fault (List Edit)
  | [] => pure []
  | (slot, record) :: rest => do
    let (edit, statement) ← planSlot layout ts current slot record
    let later ← planFrom layout ts (some statement) rest
    pure (edit :: later)

/-- The edits that write `ordered` into `slots`, in source order. -/
def planEdits (layout : Layout) (ts : List Token) (slots ordered : List Record) :
    Except Fault (List Edit) :=
  planFrom layout ts none (slots.zip ordered)

/-- The edits that order the records of a sub-group. -/
def planRecords (settings : Settings) (ts : List Token) (records : List Record) :
    Except Fault (List Edit) :=
  planEdits settings.layout ts records (orderRecords settings records)

/-! ## Applying edits -/

/-- What became of the tokens, and how many edits changed something, or the fault that stopped the
work. -/
structure Applied where
  tokens : List Token
  changed : Except Fault Nat

/-- Apply edits in the given order. An edit that would write what is there already is left out. -/
def applyInOrder (ts : List Token) (changed : Nat) : List Edit → Applied
  | [] => ⟨ts, .ok changed⟩
  | e :: rest =>
    if slice ts e.start e.stop = e.tokens then applyInOrder ts changed rest
    else match splice ts e.start e.stop e.tokens with
      | .ok new => applyInOrder new (changed + 1) rest
      | .error fault => ⟨ts, .error fault⟩

/-- Apply edits from the last start position to the first, so that positions still to come stay
valid. -/
def applyEdits (ts : List Token) (edits : List Edit) : Applied :=
  applyInOrder ts 0 (edits.mergeSort fun a b => decide (b.start ≤ a.start))

end UseOrder
