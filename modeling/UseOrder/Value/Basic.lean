import UseOrder.Decimal.Shortest

/-!
# Values

Options, reports and rows of tokens are passed around as values of a data format: null, booleans,
whole and fractional numbers, texts, lists and mappings. Whole and fractional numbers are distinct
(`1` and `1.0` are different values), and a mapping keeps the order in which its keys were first
given. Keys are values too; in a text of the data format they are always texts.
-/

namespace UseOrder

/-- A value of the data format. -/
inductive Value
  | null
  | bool (b : Bool)
  | int (n : Int)
  | float (x : Float)
  | str (s : String)
  | list (items : List Value)
  | map (entries : List (Value × Value))
deriving Inhabited

namespace Value

/-- A text given by its characters. -/
def text (s : List Char) : Value :=
  .str (String.ofList s)

/-- A natural number. -/
def nat (n : Nat) : Value :=
  .int n

/-- A mapping whose keys are texts. -/
def object (fields : List (String × Value)) : Value :=
  .map (fields.map fun (key, value) => (.str key, value))

/-- A value that may be missing, where null stands for "missing". -/
def ofOption {α : Type} (f : α → Value) : Option α → Value
  | none => .null
  | some a => f a

/-- The number that a boolean or a number stands for in a comparison of keys. -/
def asNumber? : Value → Option (Int ⊕ Float)
  | .bool b => some (.inl (if b then 1 else 0))
  | .int n => some (.inl n)
  | .float x => some (.inr x)
  | _ => none

/-- A whole number equals a fractional one, compared without rounding: the fractional one is
`mantissa · 2^exponent`, and both are brought to the same power of two. -/
def intEqFloat (n : Int) (x : Float) : Bool :=
  match Decimal.partsOf x with
  | .zero _ => n == 0
  | .finite negative b =>
    decide (n < 0) == negative &&
      n.natAbs * Decimal.twoPow (-b.exponent) == b.mantissa * Decimal.twoPow b.exponent
  | _ => false

/-- Two values are one key of a mapping: numbers and booleans compare by their numeric value, all
other values by kind and content. -/
def sameKey (a b : Value) : Bool :=
  match a, b with
  | .null, .null => true
  | .str s, .str t => s == t
  | _, _ =>
    match a.asNumber?, b.asNumber? with
    | some (.inl m), some (.inl n) => m == n
    | some (.inr x), some (.inr y) => x == y
    | some (.inl n), some (.inr x) => intEqFloat n x
    | some (.inr x), some (.inl n) => intEqFloat n x
    | _, _ => false

/-- Set a key of a mapping. A key that is there already keeps its place. -/
def setEntry (key value : Value) : List (Value × Value) → List (Value × Value)
  | [] => [(key, value)]
  | (k, v) :: rest =>
    if sameKey k key then (k, value) :: rest else (k, v) :: setEntry key value rest

/-- The mapping with the given entries, of which the last with a key wins. -/
def ofEntries (entries : List (Value × Value)) : List (Value × Value) :=
  entries.foldl (fun done (key, value) => setEntry key value done) []

/-- The value at a key that is a text. -/
def lookup? (key : String) : List (Value × Value) → Option Value
  | [] => none
  | (.str k, v) :: rest => if k == key then some v else lookup? key rest
  | _ :: rest => lookup? key rest

/-- The value at a key, if this is a mapping with such a key. -/
def get? (v : Value) (key : String) : Option Value :=
  match v with
  | .map entries => lookup? key entries
  | _ => none

end Value

end UseOrder
