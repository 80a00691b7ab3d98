import UseOrder.Token.Basic

/-!
# Positions in a list of tokens

A position is an integer. From zero upward it counts from the start of the list, and below zero
from its end, so that `-1` is the last token. A search forward from a position looks at the
positions above it one after the other, through the negative ones into those from zero upward;
`tokensAfter` lays out what it sees as one list, and every such search is a search of that list.
-/

namespace UseOrder

/-- What can go wrong with positions and import statements. -/
inductive Fault
  /-- No token at a position. -/
  | outOfRange
  /-- A range that cannot be replaced. -/
  | badRange (start stop : Int) (size : Nat)
  /-- An import statement without a terminator. -/
  | unterminated (position : Int)
  /-- The closing brace of a grouped import without an opening one. -/
  | unopenedGroup
deriving DecidableEq, Repr

/-- The wording of a fault, for those that have one. -/
def Fault.message? : Fault → Option String
  | outOfRange => none
  | badRange start stop size =>
    some ("invalid splice range [" ++ start.repr ++ ", " ++ stop.repr ++ ") for " ++
      Nat.repr size ++ " tokens")
  | unterminated position => some ("Unterminated use statement at token " ++ position.repr)
  | unopenedGroup => none

/-! ## Reading -/

/-- The token at a position. -/
def tokenAt (ts : List Token) (i : Int) : Except Fault Token :=
  let index := if i < 0 then i + ts.length else i
  if index < 0 then .error .outOfRange
  else match ts[index.toNat]? with
    | some t => .ok t
    | none => .error .outOfRange

/-- The tokens at the positions above `i`, in order of position. -/
def tokensAfter (ts : List Token) (i : Int) : Except Fault (List Token) :=
  if 0 ≤ i + 1 then .ok (ts.drop (i + 1).toNat)
  -- from below zero the search runs to the end of the list and then through all of it
  else if 0 ≤ i + 1 + ts.length then .ok (ts.drop (i + 1 + ts.length).toNat ++ ts)
  else .error .outOfRange

/-- The place that a bound of a range stands for, between zero and the length. -/
def bound (size : Nat) (i : Int) : Nat :=
  if i < 0 then (i + size).toNat else min i.toNat size

/-- The tokens from `start` up to and without `stop`. -/
def slice (ts : List Token) (start stop : Int) : List Token :=
  let low := bound ts.length start
  let high := bound ts.length stop
  (ts.take high).drop low

/-- The first position above `i` whose token satisfies `p`. -/
def nextWhere (p : Token → Bool) (ts : List Token) (i : Int) : Except Fault (Option Int) :=
  (tokensAfter ts i).map fun after => (after.findIdx? p).map fun k => i + 1 + k

/-- The next token that is neither white space nor a comment. -/
def nextMeaningful (ts : List Token) (i : Int) : Except Fault (Option Int) :=
  nextWhere Token.isMeaningful ts i

/-- The next token that is no white space. -/
def nextSolid (ts : List Token) (i : Int) : Except Fault (Option Int) :=
  nextWhere (fun t => !t.isWhitespace) ts i

/-- The next token that is punctuation with one of the texts, or of one of the kinds. -/
def nextOf (texts : List Text) (kinds : List TokenKind) (ts : List Token) (i : Int) :
    Except Fault (Option Int) :=
  nextWhere (fun t => kinds.contains t.kind || texts.any t.isPunct) ts i

/-- The position of the last token of a list that satisfies `p`. -/
def lastIndex? (p : Token → Bool) (ts : List Token) : Option Nat :=
  (ts.reverse.findIdx? p).map fun k => ts.length - 1 - k

/-- The last token below `i`, and not below zero, that is neither white space nor a comment. -/
def previousMeaningful (ts : List Token) (i : Int) : Except Fault (Option Int) :=
  if i ≤ 0 then .ok none
  else if (ts.length : Int) < i then .error .outOfRange
  else .ok ((lastIndex? Token.isMeaningful (ts.take i.toNat)).map Int.ofNat)

/-- Some token has the kind. -/
def hasKind (kind : TokenKind) (ts : List Token) : Bool :=
  ts.any (·.kind == kind)

/-- The positions, counted from `i`, of the tokens that satisfy `p`. -/
def positionsFrom (p : Token → Bool) : Nat → List Token → List Nat
  | _, [] => []
  | i, t :: ts => if p t then i :: positionsFrom p (i + 1) ts else positionsFrom p (i + 1) ts

/-- The positions of the tokens of a kind. -/
def positionsOf (kind : TokenKind) (ts : List Token) : List Nat :=
  positionsFrom (·.kind == kind) 0 ts

/-! ## Writing -/

/-- Replace the tokens from `start` up to and without `stop`. -/
def splice (ts : List Token) (start stop : Int) (new : List Token) : Except Fault (List Token) :=
  if 0 ≤ start ∧ start ≤ stop ∧ stop ≤ ts.length then
    .ok (ts.take start.toNat ++ new ++ ts.drop stop.toNat)
  else .error (.badRange start stop ts.length)

/-- Put a token before the one at `i`, or at the nearer end if there is none. -/
def insertAt (ts : List Token) (i : Int) (t : Token) : List Token :=
  let place := bound ts.length i
  ts.take place ++ t :: ts.drop place

end UseOrder
