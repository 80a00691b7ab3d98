/-!
# Text

Source text and everything cut from it is a list of characters, so that lengths, offsets and the
order of texts are all counted in code points.

Two classes of blank characters are told apart. A blank is one of the four characters that separate
tokens of source code; white space is the wider class that is trimmed from both ends of a text.
Classes that reach past ASCII are data of the Unicode standard (version 14.0): each is kept as a
list of closed ranges of code points, and membership is a search of that list.
-/

namespace UseOrder

/-- A text, as its characters. -/
abbrev Text := List Char

/-! ## Characters -/

/-- A closed range of code points, both ends included. -/
abbrev CodeRange := Nat × Nat

/-- The code point lies in one of the ranges. -/
def inRanges (table : List CodeRange) (code : Nat) : Bool :=
  table.any fun range => decide (range.1 ≤ code) && decide (code ≤ range.2)

/-- The characters that separate tokens: space, tab, carriage return, line feed. -/
def isBlank (c : Char) : Bool :=
  c == ' ' || c == '\t' || c == '\r' || c == '\n'

/-- Spaces, line and paragraph separators, and the controls that act as separators. -/
def isWhite (c : Char) : Bool :=
  let n := c.toNat
  (0x09 ≤ n && n ≤ 0x0D) || (0x1C ≤ n && n ≤ 0x20) || n == 0x85 || n == 0xA0 || n == 0x1680 ||
    (0x2000 ≤ n && n ≤ 0x200A) || n == 0x2028 || n == 0x2029 || n == 0x202F || n == 0x205F ||
    n == 0x3000

namespace Text

/-! ## Order and pieces -/

/-- Code point order: the first difference decides, and a text comes before its extensions. -/
def compare : Text → Text → Ordering
  | [], [] => .eq
  | [], _ :: _ => .lt
  | _ :: _, [] => .gt
  | c :: s, d :: t =>
    if c.toNat < d.toNat then .lt else if d.toNat < c.toNat then .gt else compare s t

/-- `s` does not come after `t`. -/
def le (s t : Text) : Bool :=
  (compare s t).isLE

/-- `part` occurs in the text as a contiguous piece. -/
def hasPart (part : Text) : Text → Bool
  | [] => part.isEmpty
  | c :: rest => part.isPrefixOf (c :: rest) || hasPart part rest

/-- Drop the characters of a class from the end. -/
def trimEndBy (p : Char → Bool) (text : Text) : Text :=
  (text.reverse.dropWhile p).reverse

/-- Drop the characters of a class from both ends. -/
def trimBy (p : Char → Bool) (text : Text) : Text :=
  trimEndBy p (text.dropWhile p)

/-- The text without white space at its ends. -/
def strip (text : Text) : Text :=
  text.trimBy isWhite

/-- The text without white space at its end. -/
def stripEnd (text : Text) : Text :=
  text.trimEndBy isWhite

/-- What follows the last occurrence of a character, or the whole text if there is none. -/
def afterLast (c : Char) (text : Text) : Text :=
  (text.reverse.takeWhile (· != c)).reverse

/-- The text cut at every occurrence of a character, which is dropped: one piece more than there
are occurrences. -/
def splitAt (c : Char) : Text → List Text
  | [] => [[]]
  | d :: rest =>
    if d == c then [] :: splitAt c rest
    else match splitAt c rest with
      | [] => [[d]]
      | piece :: pieces => (d :: piece) :: pieces

/-! ## Lines

A text is cut after every line break, which stays with its line. Besides line feed and carriage
return (together one break), the vertical tab, the form feed, three of the information separators,
the next-line control and the line and paragraph separators break a line. -/

/-- A character that ends a line. -/
def breaksLine (c : Char) : Bool :=
  let n := c.toNat
  (0x0A ≤ n && n ≤ 0x0D) || (0x1C ≤ n && n ≤ 0x1E) || n == 0x85 || n == 0x2028 || n == 0x2029

/-- The lines of a text, each with its line break. -/
def lines : Text → List Text
  | [] => []
  | c :: rest =>
    -- A carriage return leaves the break to the line feed after it.
    if breaksLine c && !(c == '\r' && rest.head? == some '\n') then [c] :: lines rest
    else match lines rest with
      | [] => [[c]]
      | line :: others => (c :: line) :: others

end Text

end UseOrder
