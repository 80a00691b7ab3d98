import UseOrder.Decimal.Shortest
import UseOrder.Text.Basic
import UseOrder.Text.Quoted
import UseOrder.Value.Basic

/-!
# Writing JSON

Two layouts are in use. The line layout keeps to ASCII, with a blank after each comma and colon.
The page layout indents by two blanks a level, sorts the keys of every mapping by code point and
keeps all characters that need no escape.
-/

namespace UseOrder.Json

/-- Numbers in JSON: as in messages, with capital names for what is no number. -/
def numberStyle : Decimal.Style :=
  { leastPositional := -4, firstScientific := 16, notANumber := "NaN", infinity := "Infinity" }

/-- The two-character escape of a character that has one. -/
def shortEscape? (c : Char) : Option Char :=
  match c.toNat with
  | 0x22 => some c
  | 0x5C => some c
  | 0x08 => some 'b'
  | 0x0C => some 'f'
  | 0x0A => some 'n'
  | 0x0D => some 'r'
  | 0x09 => some 't'
  | _ => none

/-- A code unit as an escape. -/
def unitEscape (n : Nat) : Text :=
  ['\\', 'u'] ++ Text.hex 4 n

/-- A character by its escapes: one unit, or a pair of surrogates. -/
def charEscape (c : Char) : Text :=
  let n := c.toNat
  if n < 0x10000 then unitEscape n
  else unitEscape (0xD800 + (n - 0x10000) / 0x400) ++ unitEscape (0xDC00 + (n - 0x10000) % 0x400)

/-- One character of a text in quotes. -/
def writtenChar (ascii : Bool) (c : Char) : Text :=
  match shortEscape? c with
  | some d => ['\\', d]
  | none =>
    if c.toNat < 0x20 || (ascii && 0x7E < c.toNat) then charEscape c else [c]

/-- A text in quotes. -/
def writtenText (ascii : Bool) (s : String) : String :=
  String.ofList ('"' :: s.toList.flatMap (writtenChar ascii) ++ ['"'])

/-- A key of a mapping, which is written as a text whatever it is. -/
def keyText : Value → String
  | .str s => s
  | .null => "null"
  | .bool b => if b then "true" else "false"
  | .int n => n.repr
  | .float x => numberStyle.render x
  | _ => ""

/-- Entries by the code points of their keys; entries with one key keep their order. -/
def sortEntries (entries : List (String × String)) : List (String × String) :=
  entries.mergeSort fun a b => Text.le a.1.toList b.1.toList

/-- How a list or mapping is laid out. -/
structure Layout where
  /-- Write everything but ASCII by escapes. -/
  ascii : Bool
  /-- Sort the keys of mappings. -/
  sorted : Bool
  /-- Blanks a level, each item on a line of its own; or everything on one line. -/
  indent : Option Nat

namespace Layout

/-- A line break and the indentation of a level, if items stand on lines of their own. -/
def lineBreak (layout : Layout) (level : Nat) : String :=
  match layout.indent with
  | none => ""
  | some n => "\n" ++ String.ofList (List.replicate (n * level) ' ')

/-- What separates two items. -/
def comma (layout : Layout) (level : Nat) : String :=
  match layout.indent with
  | none => ", "
  | some _ => "," ++ layout.lineBreak level

/-- Items between brackets, the items at the given level. -/
def enclose (layout : Layout) (level : Nat) (opening closing : String) (items : List String) :
    String :=
  if items.isEmpty then opening ++ closing
  else
    opening ++ layout.lineBreak (level + 1) ++
      String.intercalate (layout.comma (level + 1)) items ++ layout.lineBreak level ++ closing

mutual

/-- A value, written at a level of nesting. -/
def write (layout : Layout) (level : Nat) : Value → String
  | .null => "null"
  | .bool b => if b then "true" else "false"
  | .int n => n.repr
  | .float x => numberStyle.render x
  | .str s => writtenText layout.ascii s
  | .list items => layout.enclose level "[" "]" (writeItems layout (level + 1) items)
  | .map entries =>
    let written := writeEntries layout (level + 1) entries
    let ordered := if layout.sorted then sortEntries written else written
    layout.enclose level "\x7b" "\x7d"
      (ordered.map fun (key, value) => writtenText layout.ascii key ++ ": " ++ value)

/-- The items of a list. -/
def writeItems (layout : Layout) (level : Nat) : List Value → List String
  | [] => []
  | v :: rest => write layout level v :: writeItems layout level rest

/-- The keys of a mapping and its written values. -/
def writeEntries (layout : Layout) (level : Nat) : List (Value × Value) → List (String × String)
  | [] => []
  | (k, v) :: rest => (keyText k, write layout level v) :: writeEntries layout level rest

end

end Layout

/-- The line layout. -/
def line (v : Value) : String :=
  Layout.write { ascii := true, sorted := false, indent := none } 0 v

/-- The line layout with sorted keys. -/
def sortedLine (v : Value) : String :=
  Layout.write { ascii := true, sorted := true, indent := none } 0 v

/-- The page layout. -/
def page (v : Value) : String :=
  Layout.write { ascii := false, sorted := true, indent := some 2 } 0 v

end UseOrder.Json
