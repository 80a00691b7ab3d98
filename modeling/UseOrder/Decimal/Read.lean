import UseOrder.Text.LowerCase
import UseOrder.Text.Numeral

/-!
# Reading numbers

Numbers on the command line may have white space around them, a sign, digits of any script, and
single underscores between digits.
-/

namespace UseOrder.Decimal

/-- The number that ASCII digits write. -/
def digitsValue (digits : Text) : Nat :=
  digits.foldl (fun n c => 10 * n + (c.toNat - '0'.toNat)) 0

/-- A fractional number from its digits and the exponent of the last of them. Numbers out of range
are infinite or zero. -/
def floatOf (negative : Bool) (digits : Text) (exponent : Int) : Float :=
  let n := digitsValue digits
  let top := exponent + (Nat.toDigits 10 n).length
  let magnitude :=
    if n == 0 || top < -400 then 0.0
    else if 400 < top then 1.0 / 0.0
    else Float.ofScientific n (decide (exponent < 0)) exponent.natAbs
  if negative then -magnitude else magnitude

/-- The most digits that a whole number may be written with. -/
def maxDigits : Nat := 4300

/-- White space around a number: the information separators do not belong to it. -/
def isPadding (c : Char) : Bool :=
  isWhite c && !(0x1C ≤ c.toNat && c.toNat ≤ 0x1F)

/-- The text without padding, its digits as ASCII digits. -/
def plainDigits (text : Text) : Text :=
  (Text.trimBy isPadding text).map fun c =>
    match digitValue? c with
    | some n => Nat.digitChar n
    | none => c

/-- The text without its underscores, if each of them stands between two digits. `before` tells that
a digit stands in front. -/
def dropUnderscores? (before : Bool) : Text → Option Text
  | [] => some []
  | c :: rest =>
    if c == '_' then
      if before && rest.head?.any isAsciiDigit then dropUnderscores? false rest else none
    else (dropUnderscores? (isAsciiDigit c) rest).map (c :: ·)

/-- A sign, which may be missing: whether it is a minus, and what follows it. -/
def signed (text : Text) : Bool × Text :=
  match text with
  | '-' :: rest => (true, rest)
  | '+' :: rest => (false, rest)
  | _ => (false, text)

/-- The whole number that a text writes. -/
def readInteger? (text : Text) : Option Int := do
  let plain ← dropUnderscores? false (plainDigits text)
  let (negative, digits) := signed plain
  if digits.isEmpty || !digits.all isAsciiDigit || maxDigits < digits.length then none
  else
    let n : Int := digitsValue digits
    some (if negative then -n else n)

/-- The exponent after a mark: a sign and digits. -/
def readExponent? (text : Text) : Option Int :=
  let (negative, digits) := signed text
  if digits.isEmpty || !digits.all isAsciiDigit then none
  else
    let n : Int := digitsValue digits
    some (if negative then -n else n)

/-- The number that a text without a sign writes: digits with a point, and an exponent. -/
def readMagnitude? (negative : Bool) (text : Text) : Option Float := do
  let isMark (c : Char) : Bool := c == 'e' || c == 'E'
  let body := text.takeWhile fun c => !isMark c
  let exponent ← match text.dropWhile (fun c => !isMark c) with
    | [] => some 0
    | _ :: rest => readExponent? rest
  let whole := body.takeWhile isAsciiDigit
  let fraction ← match body.dropWhile isAsciiDigit with
    | [] => some []
    | '.' :: rest => if rest.all isAsciiDigit then some rest else none
    | _ => none
  if (whole ++ fraction).isEmpty then none
  else some (floatOf negative (whole ++ fraction) (exponent - fraction.length))

/-- The fractional number that a text writes; infinity and what is no number have names. -/
def readFloat? (text : Text) : Option Float := do
  let plain ← dropUnderscores? false (plainDigits text)
  let (negative, rest) := signed plain
  let infinity : Float := 1.0 / 0.0
  let name := String.ofList (lower rest)
  if name == "inf" || name == "infinity" then some (if negative then -infinity else infinity)
  else if name == "nan" then some (0.0 / 0.0)
  else readMagnitude? negative rest

end UseOrder.Decimal
