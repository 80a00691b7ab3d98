/-!
# Shortest decimal of a binary number

A double is `m · 2^q` with natural `m`. The reals that round to it form an interval around it,
whose ends belong to it exactly when `m` is even. The shortest decimal is found on coarser and
coarser grids: for one digit, two digits, ... the two multiples of the grid's unit next to the
value are tried, and the first grid with a multiple inside the interval gives the digits. Of two
such multiples the nearer is taken, and on a tie the even one. All arithmetic is exact.
-/

namespace UseOrder.Decimal

/-- A positive double `mantissa · 2^exponent`; `narrow` says that the gap to the next smaller
double is half the gap to the next larger one. -/
structure Binary where
  mantissa : Nat
  exponent : Int
  narrow : Bool

/-- Digits `d₁d₂…dₙ`, most significant first, for the number `d₁.d₂…dₙ · 10^exponent`. -/
structure Digits where
  digits : List Nat
  exponent : Int

/-- `10^k` for a natural part of an exponent. -/
def tenPow (k : Int) : Nat :=
  Nat.pow 10 k.toNat

/-- `2^k` for a natural part of an exponent. -/
def twoPow (k : Int) : Nat :=
  Nat.pow 2 k.toNat

namespace Binary

/-- A number of quarters of `2^exponent`, in units in which one multiple of `10^scale` is the
natural number `unit`. -/
def numerator (b : Binary) (quarters : Nat) (scale : Int) : Nat :=
  quarters * twoPow b.exponent * tenPow (-scale)

/-- What one multiple of `10^scale` is in the same units. -/
def unit (b : Binary) (scale : Int) : Nat :=
  4 * twoPow (-b.exponent) * tenPow scale

/-- The multiple `k · 10^scale` rounds to the number. -/
def covers (b : Binary) (scale : Int) (k : Nat) : Bool :=
  let point := k * b.unit scale
  let low := b.numerator (4 * b.mantissa - if b.narrow then 1 else 2) scale
  let high := b.numerator (4 * b.mantissa + 2) scale
  -- a tie rounds to the even mantissa, which therefore covers its ends
  if b.mantissa % 2 == 0 then low ≤ point && point ≤ high else low < point && point < high

/-- The multiple of `10^scale` nearest to the number among those that round to it. -/
def nearest? (b : Binary) (scale : Int) : Option Nat :=
  let value := b.numerator (4 * b.mantissa) scale
  let unit := b.unit scale
  let below := value / unit
  let above := below + 1
  match b.covers scale below, b.covers scale above with
  | true, true =>
    let toBelow := value - below * unit
    let toAbove := above * unit - value
    if toBelow < toAbove then some below
    else if toAbove < toBelow then some above
    else some (if below % 2 == 0 then below else above)
  | true, false => some below
  | false, true => some above
  | false, false => none

/-- The exponent `e` with `10^e ≤ value < 10^(e+1)`, sought upward from a start not above it. -/
def magnitudeFrom (b : Binary) : Nat → Int → Int
  | 0, e => e
  | fuel + 1, e =>
    if b.unit (e + 1) ≤ b.numerator (4 * b.mantissa) (e + 1) then magnitudeFrom b fuel (e + 1)
    else e

/-- The decimal exponent of the first digit. -/
def magnitude (b : Binary) : Int :=
  b.magnitudeFrom 700 (-330)

/-- The shortest digits, tried from `count` digits on. -/
def shortestFrom (b : Binary) (e : Int) : Nat → Nat → Nat × Int
  | 0, count => (b.numerator (4 * b.mantissa) (e - count) / b.unit (e - count), e - count)
  | fuel + 1, count =>
    match b.nearest? (e - count) with
    | some k => (k, e - count)
    | none => shortestFrom b e fuel (count + 1)

/-- Drop the zeros at the end of a number. -/
def dropZeros : Nat → Nat → Int → Nat × Int
  | 0, k, s => (k, s)
  | fuel + 1, k, s => if k % 10 == 0 && k != 0 then dropZeros fuel (k / 10) (s + 1) else (k, s)

/-- The fewest digits that read back as the number, the nearest such. -/
def shortest (b : Binary) : Digits :=
  let (k, scale) := b.shortestFrom b.magnitude 17 0
  let (k, scale) := dropZeros 20 k scale
  let digits := (Nat.toDigits 10 k).map fun c => c.toNat - '0'.toNat
  ⟨digits, scale + digits.length - 1⟩

end Binary

/-- The parts of a double. -/
inductive Parts
  | nan
  | infinite (negative : Bool)
  | zero (negative : Bool)
  | finite (negative : Bool) (magnitude : Binary)

/-- Take a double apart: sign, eleven bits of exponent, fifty-two bits of mantissa. -/
def partsOf (x : Float) : Parts :=
  let bits := x.toBits.toNat
  let negative := bits / Nat.pow 2 63 == 1
  let biased : Nat := bits / Nat.pow 2 52 % Nat.pow 2 11
  let fraction : Nat := bits % Nat.pow 2 52
  if biased == 2047 then
    if fraction = 0 then .infinite negative else .nan
  -- without a leading bit the gap stays that of the least exponent with one
  else if biased == 0 then
    if fraction == 0 then .zero negative else .finite negative ⟨fraction, -1074, false⟩
  else .finite negative
    { mantissa := Nat.pow 2 52 + fraction, exponent := Int.ofNat biased - 1075,
      narrow := fraction == 0 && 1 < biased }

/-- How a number is written: the first exponent, and the first exponent past those, at which the
digits stand around a point; the texts of what is no number. -/
structure Style where
  leastPositional : Int
  firstScientific : Int
  notANumber : String
  infinity : String

/-- Digits as text. -/
def digitText (ds : List Nat) : String :=
  String.ofList (ds.map Nat.digitChar)

/-- A whole number with at least two digits. -/
def twoDigits (n : Nat) : String :=
  if n < 10 then "0" ++ Nat.repr n else Nat.repr n

/-- The digits around a point, with at least one digit on either side, or with an exponent of at
least two digits. -/
def Style.digits (style : Style) (d : Digits) : String :=
  if style.leastPositional ≤ d.exponent && d.exponent < style.firstScientific then
    if d.exponent < 0 then
      "0." ++ String.ofList (List.replicate (-d.exponent - 1).toNat '0') ++ digitText d.digits
    else
      let whole := d.exponent.toNat + 1
      let left := d.digits.take whole
      let right := d.digits.drop whole
      digitText (left ++ List.replicate (whole - left.length) 0) ++ "." ++
        (if right.isEmpty then "0" else digitText right)
  else
    digitText (d.digits.take 1) ++
      (if (d.digits.drop 1).isEmpty then "" else "." ++ digitText (d.digits.drop 1)) ++ "e" ++
      (if d.exponent < 0 then "-" else "+") ++ twoDigits d.exponent.natAbs

/-- A double as text. -/
def Style.render (style : Style) (x : Float) : String :=
  let sign (negative : Bool) : String := if negative then "-" else ""
  match partsOf x with
  | .nan => style.notANumber
  | .infinite negative => sign negative ++ style.infinity
  | .zero negative => sign negative ++ "0.0"
  | .finite negative b => sign negative ++ style.digits b.shortest

end UseOrder.Decimal
