import UseOrder.Import.Run

/-!
# Blank lines between imports

A blank line separates consecutive imports whose names start with different namespace segments.
Names without a separator share the empty segment.
-/

namespace UseOrder

/-- A letter, in any case. Two letters have further forms beyond ASCII: the long s, and the i with
and without its dot in the other case. -/
def isLetterOf (letter c : Char) : Bool :=
  lower [c] == [letter] || (letter == 's' && c == 'ſ') || (letter == 'i' && (c == 'ı' || c == 'İ'))

/-- What follows a word, in any case, if the text starts with it. -/
def afterWord? (word text : Text) : Option Text :=
  match word, text with
  | [], rest => some rest
  | _ :: _, [] => none
  | w :: ws, c :: cs => if isLetterOf w c then afterWord? ws cs else none

/-- The text without a qualifier word and the white space after it. -/
def dropQualifier (text : Text) : Text :=
  match (afterWord? "const".toList text).orElse fun _ => afterWord? "function".toList text with
  | some rest => if rest.head?.any isWhite then rest.dropWhile isWhite else text
  | none => text

/-- The first segment of a path: what stands before the first separator, separators at the start
apart; empty if there is no separator. -/
def firstSegment (path : Text) : Text :=
  let relative := path.dropWhile (· == '\\')
  if relative.contains '\\' then Text.strip (relative.takeWhile (· != '\\')) else []

/-- The first namespace segment of the statement at `u`. -/
def leadingSegment (ts : List Token) (u : Int) : Except Fault Text := do
  let stop ← statementEnd ts u
  return firstSegment (dropQualifier (Text.strip (stripComments (textOf (slice ts (u + 1) stop)))))

/-- The white space tokens at the end of a list. -/
def trailingSpace (ts : List Token) : List Token :=
  (ts.reverse.takeWhile Token.isWhitespace).reverse

/-- The token ends with a line break that belongs to an open tag. -/
def opensLine (t : Token) : Bool :=
  t.kind == .openTag && t.content.getLast? == some '\n'

/-- The line breaks in white space before a position; one that ends an open tag directly before it
counts too. -/
def lineBreaks (before : List Token) : Nat :=
  (textOf (trailingSpace before)).count '\n' +
    if (trimEnd before).getLast?.any opensLine then 1 else 0

/-- Make the white space before position `i` hold at least two line breaks; tells whether it had to
be changed. White space on one line is replaced, indentation is kept. -/
def ensureBlankLine (lineEnding : Text) (ts : List Token) (i : Int) :
    Except Fault (Bool × List Token) :=
  if (ts.length : Int) < i then .error .outOfRange
  else
    let before := ts.take i.toNat
    let space := trailingSpace before
    let breaks := lineBreaks before
    if 2 ≤ breaks then .ok (false, ts)
    else
      let needed := (List.replicate (2 - breaks) lineEnding).flatten
      if space.isEmpty then .ok (true, insertAt ts i ⟨.whitespace, needed⟩)
      else
        -- the line breaks that are there count, so what is kept makes up the rest
        let kept := if breaks == 0 then [] else textOf space
        .ok (true, trimEnd before ++ ⟨.whitespace, needed ++ kept⟩ :: ts.drop i.toNat)

/-- The positions of imports whose segment differs from that of the import before them. -/
def segmentStarts : List (Int × Text) → List Int
  | a :: b :: rest =>
    if b.2 = a.2 then segmentStarts (b :: rest) else b.1 :: segmentStarts (b :: rest)
  | _ => []

/-- Ensure a blank line at each position, in the given order; tells how many had to be added. -/
def ensureBlankLines (lineEnding : Text) (ts : List Token) (added : Nat) :
    List Int → Except Fault (Nat × List Token)
  | [] => return (added, ts)
  | i :: rest => do
    let (changed, new) ← ensureBlankLine lineEnding ts i
    ensureBlankLines lineEnding new (if changed then added + 1 else added) rest

/-- Separate consecutive imports with different first segments; tells how many separators had to
be added. Works from the end of the list, so that positions still to come stay valid. -/
def insertBlankLines (layout : Layout) (ts : List Token) : Except Fault (Nat × List Token) := do
  let uses := (importRuns ts).flatten
  let segments ← uses.mapM (leadingSegment ts)
  ensureBlankLines layout.lineEnding.text ts 0 (segmentStarts (uses.zip segments)).reverse

end UseOrder
