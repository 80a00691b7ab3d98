import Mathlib.Data.List.Chain
import UseOrder.Import.Plan
import UseOrder.Import.Statement

/-!
# Cells

The tokens of a source text with well-formed imports fall into *cells*, one for each record, and a
tail behind the last of them. A cell holds what leads up to the slot of its record, the slot
itself (the qualifier, if there is one, and the tokens of the name or group), and the white space
behind it. The first cell of a statement is led in by everything since the cell before, its
terminator included, and by the `use`; the others are led in by their comma.

Reordering imports only ever changes cells: the lead of a cell stays, or a comma gives way to a new
`use`, and a record moves into the slot. So the whole theory of reordering is told about lists of
cells: what is parsed from them (`Cell.record`), when a list of cells stands for statements that
are parsed back (`CellsOk`), and later what becomes of them.
-/

namespace UseOrder

/-! ## Tokens inside an import statement -/

namespace Token

/-- The word that tells constants or functions from classes. -/
def isQualifier (t : Token) : Bool :=
  t.kind == .constWord || t.kind == .functionWord

/-- A brace of a grouped import. -/
def isGroupBrace (t : Token) : Bool :=
  t.kind == .groupOpen || t.kind == .groupClose

/-- A token that may stand in an import statement, between the `use` and the terminator. -/
def isInner (t : Token) : Bool :=
  !t.isTerminator && t.kind != .useWord && t.kind != .namespaceWord && t.kind != .openTag &&
    !t.content.isEmpty

end Token

/-- White space, or nothing at all. -/
def AllSpace (ts : List Token) : Prop :=
  ∀ t ∈ ts, t.isWhitespace = true

/-- The tokens that write one record: no white space at either end, and no qualifier in front. -/
structure IsCore (ts : List Token) : Prop where
  inner : ∀ t ∈ ts, t.isInner = true
  first : ∃ t rest, ts = t :: rest ∧ t.isWhitespace = false ∧ t.isQualifier = false
  last : ∃ rest t, ts = rest ++ [t] ∧ t.isWhitespace = false

/-- A name: neither commas nor group braces. -/
def IsName (ts : List Token) : Prop :=
  ∀ t ∈ ts, t.isComma = false ∧ t.isGroupBrace = false

/-- A brace group: one pair of braces, and nothing meaningful behind the closing one. -/
def IsGroup (ts : List Token) : Prop :=
  ∃ front opening inside closing back,
    ts = front ++ opening :: (inside ++ closing :: back) ∧
    opening.kind = .groupOpen ∧ closing.kind = .groupClose ∧
    (∀ t ∈ front ++ inside ++ back, t.isGroupBrace = false) ∧
    ∀ t ∈ back, t.isMeaningful = false

/-! ## Cells -/

/-- What leads up to a slot. -/
inductive Lead
  /-- Everything since the cell before, the `use`, and white space. -/
  | start (gap : List Token) (word : Token) (space : List Token)
  /-- A comma and white space. -/
  | comma (space : List Token)

/-- The tokens of a lead. -/
def Lead.tokens : Lead → List Token
  | start gap word space => gap ++ word :: space
  | comma space => commaToken :: space

/-- The tokens that belong to one record. -/
structure Cell where
  lead : Lead
  kind : ImportKind
  grouped : Bool
  /-- The qualifier word and the white space behind it, where the statement starts with one. -/
  qualifier : List Token
  core : List Token
  after : List Token

/-- A group with its names in order, if the settings ask for it. -/
def arrangeGroup (settings : Settings) (source : List Token) : List Token :=
  match source.findIdx? (·.kind == .groupOpen) with
  | none => source
  | some openAt =>
    if settings.algorithm == .unsorted then source
    else (sortGroup? settings.layout source openAt
      ((lastIndex? (·.kind == .groupClose) source).getD 0 : Nat)).getD source

namespace Cell

/-- The cell starts a statement. -/
def isStart (c : Cell) : Bool :=
  match c.lead with
  | .start _ _ _ => true
  | .comma _ => false

/-- The tokens of a cell. -/
def tokens (c : Cell) : List Token :=
  c.lead.tokens ++ c.qualifier ++ c.core ++ c.after

/-- The tokens that the record of a cell is written with. -/
def arranged (settings : Settings) (c : Cell) : List Token :=
  if c.grouped then arrangeGroup settings c.core else c.core

/-- The record of a cell whose tokens start at `offset`. -/
def record (settings : Settings) (offset : Nat) (c : Cell) : Record :=
  let written := c.arranged settings
  { name := textOf written
    kind := c.kind
    grouped := c.grouped
    start := (offset + c.lead.tokens.length : Nat)
    last := (offset + c.lead.tokens.length + c.qualifier.length + c.core.length : Nat) - 1
    tokens := written
    qualifier := if c.isStart && c.kind != .classKind then some (textOf c.qualifier) else none
    groupPath :=
      if c.grouped then some (textOf (written.takeWhile (·.kind != .groupOpen))) else none }

/-- The records of cells that follow each other from `offset` on. -/
def records (settings : Settings) (offset : Nat) : List Cell → List Record
  | [] => []
  | c :: cs => c.record settings offset :: records settings (offset + c.tokens.length) cs

end Cell

/-- The qualifier that stands in front of a record of a kind. -/
def IsQualifierOf (kind : ImportKind) (ts : List Token) : Prop :=
  match kind.qualifierKind? with
  | none => ts = []
  | some word => ∃ t space, ts = t :: space ∧ t.kind = word ∧ AllSpace space

/-- The lead fits the qualifier: only a statement starts with one. -/
def LeadOk (kind : ImportKind) (qualifier : List Token) : Lead → Prop
  | .start gap word space =>
    (∀ t ∈ gap, t.kind ≠ .useWord) ∧ word.kind = .useWord ∧ AllSpace space ∧
      IsQualifierOf kind qualifier
  | .comma space => AllSpace space ∧ qualifier = []

/-- A cell that is parsed back. -/
structure CellOk (c : Cell) : Prop where
  lead : LeadOk c.kind c.qualifier c.lead
  core : IsCore c.core
  shape : if c.grouped then IsGroup c.core else IsName c.core
  after : AllSpace c.after

/-- The tokens begin with a terminator, and behind a close tag code starts again. -/
def EndsStatement (gap : List Token) : Prop :=
  ∃ stop rest, gap = stop :: rest ∧ stop.isTerminator = true ∧
    (stop.kind = .closeTag → ∃ t ∈ rest, t.kind = .openTag)

/-- One cell may follow another: a new statement needs a terminator, and a comma continues a
statement of names of one kind. -/
def MayFollow (c d : Cell) : Prop :=
  match d.lead with
  | .start gap _ _ => EndsStatement gap
  | .comma _ => d.kind = c.kind ∧ c.grouped = false ∧ d.grouped = false

/-- Cells that are parsed back, one statement after the other. -/
structure CellsOk (cells : List Cell) : Prop where
  each : ∀ c ∈ cells, CellOk c
  chain : cells.IsChain MayFollow

end UseOrder
