import UseOrder.Import.Record

/-!
# Settings

How imports are to be ordered, and the layout of what has to be written anew.
-/

namespace UseOrder

/-- What imports are sorted by. -/
inductive SortAlgorithm
  | alpha
  | length
  | byNamespace
  | unsorted
deriving DecidableEq, Repr

namespace SortAlgorithm

/-- Every algorithm, in the order of declaration. -/
def all : List SortAlgorithm :=
  [alpha, length, byNamespace, unsorted]

/-- The word for an algorithm. -/
def label : SortAlgorithm → String
  | alpha => "alpha"
  | length => "length"
  | byNamespace => "namespace"
  | unsorted => "none"

/-- The algorithm with a word. -/
def ofLabel? (text : String) : Option SortAlgorithm :=
  all.find? (·.label == text)

end SortAlgorithm

/-- The order in which kinds of imports follow each other: each kind once. -/
structure KindOrder where
  kinds : List ImportKind
  complete : kinds.Perm ImportKind.all
deriving DecidableEq

/-- One step of indentation. -/
inductive Indent
  | twoSpaces
  | fourSpaces
  | tab
deriving DecidableEq, Repr

namespace Indent

/-- Every indentation. -/
def all : List Indent :=
  [twoSpaces, fourSpaces, tab]

/-- The blanks of an indentation. -/
def chars : Indent → String
  | twoSpaces => "  "
  | fourSpaces => "    "
  | tab => "\t"

/-- The indentation that is written so. -/
def ofChars? (text : String) : Option Indent :=
  all.find? (·.chars == text)

/-- The characters of an indentation. -/
def text (i : Indent) : Text :=
  i.chars.toList

end Indent

/-- How a line ends. -/
inductive LineEnding
  | lf
  | crlf
deriving DecidableEq, Repr

namespace LineEnding

/-- Every line ending. -/
def all : List LineEnding :=
  [lf, crlf]

/-- The characters of a line ending. -/
def chars : LineEnding → String
  | lf => "\n"
  | crlf => "\r\n"

/-- The line ending that is written so. -/
def ofChars? (text : String) : Option LineEnding :=
  all.find? (·.chars == text)

/-- The characters of a line ending. -/
def text (e : LineEnding) : Text :=
  e.chars.toList

end LineEnding

/-- The layout of what is written anew. It is given, never guessed from the source. -/
structure Layout where
  indent : Indent := .fourSpaces
  lineEnding : LineEnding := .lf
deriving DecidableEq, Repr

/-- How imports are ordered. -/
structure Settings where
  algorithm : SortAlgorithm := .alpha
  /-- The order of kinds; without one, kinds are mixed. -/
  kindOrder : Option KindOrder := none
  caseSensitive : Bool := false
  /-- Priorities of namespace prefixes, for sorting by namespace. -/
  priorities : List (Text × Int) := []
  /-- The priority of names without a separator. Not the same as zero if it is missing. -/
  barePriority : Option Int := none
  layout : Layout := {}
deriving DecidableEq

end UseOrder
