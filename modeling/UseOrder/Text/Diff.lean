import Std.Data.HashMap
import UseOrder.Text.Basic

/-!
# Differences between two lists of lines

The comparison looks for the longest block of lines that both lists have, and then compares what
stands before and after it in the same way. Lines that are very common in a long second list do
not start a block, but may extend one. The result is written as a unified diff with three lines of
context.
-/

namespace UseOrder.Diff

/-- A block of equal lines: its start in either list and its size. -/
structure Block where
  left : Nat
  right : Nat
  size : Nat
deriving DecidableEq, Repr

/-- Both lists, and where each line stands in the second one. -/
structure Sides where
  left : Array Text
  right : Array Text
  places : Std.HashMap String (List Nat)

/-- The places of every line, in ascending order. -/
def placesOf (lines : Array Text) : Std.HashMap String (List Nat) :=
  lines.toList.zipIdx.foldr
    (fun (line, i) places =>
      let key := String.ofList line
      places.insert key (i :: places.getD key [])) {}

/-- The places of lines that may start a block: of two hundred lines or more, those that make up
over one percent are left out. -/
def usefulPlaces (lines : Array Text) : Std.HashMap String (List Nat) :=
  let places := placesOf lines
  if lines.size < 200 then places
  else places.filter fun _ indices => indices.length ≤ lines.size / 100 + 1

/-- The two sides of a comparison. -/
def Sides.of (left right : List Text) : Sides :=
  ⟨left.toArray, right.toArray, usefulPlaces right.toArray⟩

/-- A part of both lists, from the low bounds up to and without the high ones. -/
structure Window where
  leftLow : Nat
  leftHigh : Nat
  rightLow : Nat
  rightHigh : Nat

/-- The lines at two places are equal. -/
def Sides.same (s : Sides) (i j : Nat) : Bool :=
  match s.left[i]?, s.right[j]? with
  | some a, some b => a == b
  | _, _ => false

/-- The search for the longest block: the best so far, and for each place of the second list the
length of the block that ends there and at the line before. -/
structure Search where
  best : Block
  lengths : Std.HashMap Nat Nat

/-- Take account of the lines at `i` and `j`, which are equal. -/
def Search.visit (i : Nat) (before : Std.HashMap Nat Nat) (s : Search) (j : Nat) : Search :=
  let length := (if j == 0 then 0 else before.getD (j - 1) 0) + 1
  -- only a longer block takes the place of the best one, so the first of its size stays
  let best :=
    if s.best.size < length then ⟨i + 1 - length, j + 1 - length, length⟩ else s.best
  ⟨best, s.lengths.insert j length⟩

/-- Take account of line `i` of the first list. -/
def Sides.visitLine (sides : Sides) (w : Window) (s : Search) (i : Nat) : Search :=
  let places :=
    match sides.left[i]? with
    | some line => sides.places.getD (String.ofList line) []
    | none => []
  (places.filter fun j => w.rightLow ≤ j && j < w.rightHigh).foldl
    (Search.visit i s.lengths) ⟨s.best, {}⟩

/-- Extend a block downward over equal lines. -/
def Sides.extendDown (s : Sides) (w : Window) : Nat → Block → Block
  | 0, b => b
  | fuel + 1, b =>
    if w.leftLow < b.left && w.rightLow < b.right && s.same (b.left - 1) (b.right - 1) then
      s.extendDown w fuel ⟨b.left - 1, b.right - 1, b.size + 1⟩
    else b

/-- Extend a block upward over equal lines. -/
def Sides.extendUp (s : Sides) (w : Window) : Nat → Block → Block
  | 0, b => b
  | fuel + 1, b =>
    if b.left + b.size < w.leftHigh && b.right + b.size < w.rightHigh &&
        s.same (b.left + b.size) (b.right + b.size) then
      s.extendUp w fuel ⟨b.left, b.right, b.size + 1⟩
    else b

/-- The longest block of a window; of several, the first in the first list, then in the second. -/
def Sides.longest (s : Sides) (w : Window) : Block :=
  let lines := (List.range (w.leftHigh - w.leftLow)).map (· + w.leftLow)
  let found := (lines.foldl (s.visitLine w) ⟨⟨w.leftLow, w.rightLow, 0⟩, {}⟩).best
  -- lines that are too common to start a block still extend the one that was found
  let down := s.extendDown w (s.left.size) found
  s.extendUp w (s.left.size) down

/-- The blocks of a window, in order. `fuel` bounds the depth of the search. -/
def Sides.blocksFrom (s : Sides) : (fuel : Nat) → Window → List Block
  | 0, _ => []
  | fuel + 1, w =>
    if w.leftLow < w.leftHigh && w.rightLow < w.rightHigh then
      let b := s.longest w
      if b.size == 0 then []
      else
        s.blocksFrom fuel ⟨w.leftLow, b.left, w.rightLow, b.right⟩ ++ [b] ++
          s.blocksFrom fuel ⟨b.left + b.size, w.leftHigh, b.right + b.size, w.rightHigh⟩
    else []

/-- Join blocks that follow each other directly. -/
def joinBlocks : List Block → List Block
  | [] => []
  | b :: rest =>
    match joinBlocks rest with
    | [] => [b]
    | c :: others =>
      if b.left + b.size == c.left && b.right + b.size == c.right then
        ⟨b.left, b.right, b.size + c.size⟩ :: others
      else b :: c :: others

/-- All blocks of equal lines. -/
def Sides.blocks (s : Sides) : List Block :=
  joinBlocks (s.blocksFrom (s.left.size + 1) ⟨0, s.left.size, 0, s.right.size⟩)

/-- What happens to a stretch of lines. -/
inductive Change
  | equal
  | replace
  | delete
  | insert
deriving DecidableEq, Repr

/-- A stretch of both lists, and what happens to it. -/
structure Stretch where
  change : Change
  leftLow : Nat
  leftHigh : Nat
  rightLow : Nat
  rightHigh : Nat
deriving DecidableEq, Repr

/-- The stretch between two blocks, if there is one. -/
def gap (i j left right : Nat) : List Stretch :=
  if i < left && j < right then [⟨.replace, i, left, j, right⟩]
  else if i < left then [⟨.delete, i, left, j, right⟩]
  else if j < right then [⟨.insert, i, left, j, right⟩]
  else []

/-- The stretches from `i` and `j` on, given the blocks that follow and the ends of both lists. -/
def stretchesFrom (leftEnd rightEnd : Nat) (i j : Nat) : List Block → List Stretch
  | [] => gap i j leftEnd rightEnd
  | b :: rest =>
    gap i j b.left b.right ++
      ⟨.equal, b.left, b.left + b.size, b.right, b.right + b.size⟩ ::
      stretchesFrom leftEnd rightEnd (b.left + b.size) (b.right + b.size) rest

/-- Lines of context around a change. -/
def contextLines : Nat := 3

/-- Keep only the end of a stretch of equal lines. -/
def Stretch.lastLines (s : Stretch) : Stretch :=
  if s.change == .equal then
    { s with
      leftLow := max s.leftLow (s.leftHigh - contextLines)
      rightLow := max s.rightLow (s.rightHigh - contextLines) }
  else s

/-- Keep only the start of a stretch of equal lines. -/
def Stretch.firstLines (s : Stretch) : Stretch :=
  if s.change == .equal then
    { s with
      leftHigh := min s.leftHigh (s.leftLow + contextLines)
      rightHigh := min s.rightHigh (s.rightLow + contextLines) }
  else s

/-- Apply a function to the first item. -/
def mapFirst {α : Type} (f : α → α) : List α → List α
  | [] => []
  | a :: rest => f a :: rest

/-- Apply a function to the last item. -/
def mapLast {α : Type} (f : α → α) (items : List α) : List α :=
  (mapFirst f items.reverse).reverse

/-- Cut the stretches into hunks: a long stretch of equal lines ends one hunk, with its first lines,
and starts the next, with its last lines. `current` is the hunk so far, in reverse. -/
def hunksFrom (current : List Stretch) : List Stretch → List (List Stretch)
  | [] => [current.reverse]
  | s :: rest =>
    if s.change == .equal && 2 * contextLines < s.leftHigh - s.leftLow then
      (s.firstLines :: current).reverse :: hunksFrom [s.lastLines] rest
    else hunksFrom (s :: current) rest

/-- The hunk shows a change. -/
def showsChange (hunk : List Stretch) : Bool :=
  match hunk with
  | [] => false
  | [s] => s.change != .equal
  | _ => true

/-- The hunks of a comparison. -/
def Sides.hunks (s : Sides) : List (List Stretch) :=
  let stretches := stretchesFrom s.left.size s.right.size 0 0 s.blocks
  let shortened := mapLast Stretch.firstLines (mapFirst Stretch.lastLines stretches)
  (hunksFrom [] shortened).filter showsChange

/-- A range of lines in the heading of a hunk: the first line and the number of lines, which is
left out if it is one. An empty range names the line before it. -/
def rangeText (low high : Nat) : String :=
  if high - low == 1 then Nat.repr (low + 1)
  else Nat.repr (if high - low == 0 then low else low + 1) ++ "," ++ Nat.repr (high - low)

/-- The heading of a hunk. -/
def heading (hunk : List Stretch) : String :=
  match hunk.head?, hunk.getLast? with
  | some first, some last =>
    "@@ -" ++ rangeText first.leftLow last.leftHigh ++ " +" ++
      rangeText first.rightLow last.rightHigh ++ " @@\n"
  | _, _ => ""

/-- Lines with a mark in front. -/
def marked (mark : Char) (lines : Array Text) (low high : Nat) : Text :=
  (lines.extract low high).toList.flatMap (mark :: ·)

/-- The lines of a stretch. -/
def Sides.stretchText (s : Sides) (t : Stretch) : Text :=
  match t.change with
  | .equal => marked ' ' s.left t.leftLow t.leftHigh
  | .delete => marked '-' s.left t.leftLow t.leftHigh
  | .insert => marked '+' s.right t.rightLow t.rightHigh
  | .replace =>
    marked '-' s.left t.leftLow t.leftHigh ++ marked '+' s.right t.rightLow t.rightHigh

/-- The unified diff of two lists of lines, empty if they are equal. Lines are written as they are;
a last line without a line break gets none. -/
def unified (leftName rightName : String) (left right : List Text) : Text :=
  let sides := Sides.of left right
  match sides.hunks with
  | [] => []
  | hunks =>
    ("--- " ++ leftName ++ "\n+++ " ++ rightName ++ "\n").toList ++
      hunks.flatMap fun hunk => (heading hunk).toList ++ hunk.flatMap sides.stretchText

end UseOrder.Diff
