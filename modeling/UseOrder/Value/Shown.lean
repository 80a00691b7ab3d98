import UseOrder.Text.Quoted
import UseOrder.Value.Basic

/-!
# Values in messages

A message shows a value in a fixed notation: `None`, `True`, `False`, numbers with the fewest
digits that read back, quoted texts, lists in brackets and mappings in braces. A text that is the
whole of what is shown may also stand without quotes.
-/

namespace UseOrder.Value

/-- Numbers in messages: a point for exponents from -4 to 15. -/
def shownNumber : Decimal.Style :=
  { leastPositional := -4, firstScientific := 16, notANumber := "nan", infinity := "inf" }

/-- A quoted text. -/
def shownText (s : String) : String :=
  String.ofList (Text.quoted s.toList)

mutual

/-- A value as messages show it, texts in quotes. -/
def shown : Value → String
  | .null => "None"
  | .bool b => if b then "True" else "False"
  | .int n => n.repr
  | .float x => shownNumber.render x
  | .str s => shownText s
  | .list items => "[" ++ String.intercalate ", " (shownItems items) ++ "]"
  | .map entries => "\x7b" ++ String.intercalate ", " (shownEntries entries) ++ "\x7d"

/-- The items of a list. -/
def shownItems : List Value → List String
  | [] => []
  | v :: rest => v.shown :: shownItems rest

/-- The entries of a mapping. -/
def shownEntries : List (Value × Value) → List String
  | [] => []
  | (k, v) :: rest => (k.shown ++ ": " ++ v.shown) :: shownEntries rest

end

/-- A value as messages show it, a text without quotes. -/
def plain : Value → String
  | .str s => s
  | v => v.shown

end UseOrder.Value
