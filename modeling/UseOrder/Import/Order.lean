import UseOrder.Settings.Basic
import UseOrder.Text.Utf8

/-!
# The order of imports

Each algorithm compares records by a key: the path with separators read as blanks; the number of
bytes of the path and then the path itself; or the priority of the namespace and then the path.
Letter case counts only if the settings say so. Sorting is stable, and with an order of kinds the
kinds form blocks in that order.
-/

namespace UseOrder

/-- Two numbers. -/
def compareInt (a b : Int) : Ordering :=
  if a < b then .lt else if b < a then .gt else .eq

/-- The text as it is compared. -/
def foldCase (caseSensitive : Bool) (text : Text) : Text :=
  if caseSensitive then text else lower text

/-- The path with its segments as words, so that `Foo\Bar` comes before `Foo2\Bar` and `FooBar`. -/
def alphaKey (r : Record) : Text :=
  r.path.map fun c => if c == '\\' then ' ' else c

/-- The path with the qualifier in front. -/
def lengthKey (r : Record) : Text :=
  if r.kind == .classKind then r.path else r.kind.label.toList ++ [' '] ++ r.path

/-- The number of bytes that a text takes as UTF-8. -/
def byteLength (text : Text) : Nat :=
  (Utf8.encode text).length

/-- By path. -/
def compareAlpha (caseSensitive : Bool) (a b : Record) : Ordering :=
  Text.compare (foldCase caseSensitive (alphaKey a)) (foldCase caseSensitive (alphaKey b))

/-- By length in bytes, then by text. -/
def compareLength (caseSensitive : Bool) (a b : Record) : Ordering :=
  (compareInt (byteLength (lengthKey a)) (byteLength (lengthKey b))).then
    (Text.compare (foldCase caseSensitive (lengthKey a)) (foldCase caseSensitive (lengthKey b)))

/-- Where a namespace stands: ahead of everything, or at a priority, the least first. -/
inductive Rank
  | ahead
  | at (priority : Int)
deriving DecidableEq, Repr

namespace Rank

/-- Ahead comes first, then the priorities in ascending order. -/
def compare : Rank → Rank → Ordering
  | ahead, ahead => .eq
  | ahead, .at _ => .lt
  | .at _, ahead => .gt
  | .at p, .at q => compareInt p q

/-- The rank as a pair of numbers that compare the same way. -/
def toPair : Rank → Int × Int
  | ahead => (0, 0)
  | .at p => (1, p)

end Rank

/-- The longest prefix so far and its priority, after one more entry of the table. -/
def longerPrefix (path : Text) (best : Nat × Int) (entry : Text × Int) : Nat × Int :=
  -- the empty prefix never decides, and of two of one length the first one stays
  if entry.1.isPrefixOf path && best.1 < entry.1.length then (entry.1.length, entry.2) else best

/-- The rank of a path. Of the prefixes that match it the longest decides, and without one the
priority is zero. A path without a separator has the priority set for such names, and stands ahead
of everything if there is none. -/
def rankOf (priorities : List (Text × Int)) (barePriority : Option Int) (path : Text) : Rank :=
  if path.contains '\\' then .at (priorities.foldl (longerPrefix path) (0, 0)).2
  else match barePriority with
    | none => .ahead
    | some p => .at p

/-- By rank, then by path. -/
def compareNamespace (settings : Settings) (a b : Record) : Ordering :=
  let rank (r : Record) : Rank := rankOf settings.priorities settings.barePriority r.path
  (Rank.compare (rank a) (rank b)).then (compareAlpha settings.caseSensitive a b)

/-- How the settings compare two records; `none` if records keep the order of the source. -/
def comparator? (settings : Settings) : Option (Record → Record → Ordering) :=
  match settings.algorithm with
  | .alpha => some (compareAlpha settings.caseSensitive)
  | .length => some (compareLength settings.caseSensitive)
  | .byNamespace => some (compareNamespace settings)
  | .unsorted => none

/-- Sort by the comparison of the settings; records that compare equal keep their order. -/
def sortRecords (settings : Settings) (records : List Record) : List Record :=
  match comparator? settings with
  | none => records
  | some cmp => records.mergeSort fun a b => (cmp a b).isLE

/-- The records in the order that the settings ask for. -/
def orderRecords (settings : Settings) (records : List Record) : List Record :=
  match settings.kindOrder with
  | none => sortRecords settings records
  | some order =>
    order.kinds.flatMap fun kind => sortRecords settings (records.filter (·.kind == kind))

end UseOrder
