import UseOrder.Decimal.Read
import UseOrder.Value.Basic

/-!
# Reading JSON

A reader for JSON with the three names `NaN`, `Infinity` and `-Infinity` for numbers that have no
digits. A number without a fraction and without an exponent is whole. Of two entries of a mapping
with one key the last wins. A text that is no JSON is refused with the problem and the place where
it was found, counted in characters.
-/

namespace UseOrder.Json

/-- Why a text is refused. -/
inductive Problem
  | expectingValue
  | extraData
  | expectingComma
  | expectingColon
  | expectingKey
  | unterminated
  | badEscape
  | badUnicodeEscape
  | controlCharacter
  | byteOrderMark
  | tooManyDigits (count : Nat)

/-- A refusal: the problem, and how much of the text was left where it was found. -/
structure Failure where
  problem : Problem
  left : Nat

/-- A refusal with its place, counted from the start of the text. -/
structure ReadError where
  problem : Problem
  offset : Nat
  line : Nat
  column : Nat

/-- The wording of a problem. -/
def Problem.message : Problem → String
  | expectingValue => "Expecting value"
  | extraData => "Extra data"
  | expectingComma => "Expecting ',' delimiter"
  | expectingColon => "Expecting ':' delimiter"
  | expectingKey => "Expecting property name enclosed in double quotes"
  | unterminated => "Unterminated string starting at"
  | badEscape => "Invalid \\escape"
  | badUnicodeEscape => "Invalid \\uXXXX escape"
  | controlCharacter => "Invalid control character at"
  | byteOrderMark => "Unexpected UTF-8 BOM (decode using utf-8-sig)"
  | tooManyDigits n =>
    "Exceeds the limit (4300 digits) for integer string conversion: value has " ++ Nat.repr n ++
      " digits; use sys.set_int_max_str_digits() to increase the limit"

/-- The message of a refusal: problem, line, column and offset. -/
def ReadError.message (e : ReadError) : String :=
  match e.problem with
  | .tooManyDigits n => Problem.message (.tooManyDigits n)
  | problem =>
    problem.message ++ ": line " ++ Nat.repr e.line ++ " column " ++ Nat.repr e.column ++
      " (char " ++ Nat.repr e.offset ++ ")"

/-- The message names a place in the text. -/
def ReadError.hasPlace (e : ReadError) : Bool :=
  match e.problem with
  | .tooManyDigits _ => false
  | _ => true

/-- The refusal at an offset of a text. -/
def ReadError.at (text : Text) (problem : Problem) (offset : Nat) : ReadError :=
  let before := text.take offset
  let column := (before.reverse.takeWhile (· != '\n')).length + 1
  ⟨problem, offset, before.count '\n' + 1, column⟩

/-- What is left without blanks in front. -/
def skipBlanks (text : Text) : Text :=
  text.dropWhile isBlank

/-! ## Texts -/

/-- The value of a digit of base sixteen. -/
def hexValue? (c : Char) : Option Nat :=
  if '0' ≤ c && c ≤ '9' then some (c.toNat - '0'.toNat)
  else if 'a' ≤ c && c ≤ 'f' then some (c.toNat - 'a'.toNat + 10)
  else if 'A' ≤ c && c ≤ 'F' then some (c.toNat - 'A'.toNat + 10)
  else none

/-- The number that the first four characters write in base sixteen. -/
def hexUnit? (text : Text) : Option Nat :=
  (text.take 4).foldl
    (fun acc c => acc.bind fun n => (hexValue? c).map (16 * n + ·)) (some 0)

/-- The character of a code point; a lone surrogate is replaced. -/
def charOfCode (n : Nat) : Char :=
  if 0xD800 ≤ n && n ≤ 0xDFFF then Char.ofNat 0xFFFD else Char.ofNat n

/-- The escape after a backslash: its character, and how many characters it takes. -/
def escape (text : Text) : Except Problem (Char × Nat) :=
  match text with
  | [] => .error .unterminated
  | c :: rest =>
    match c with
    | '"' => .ok (c, 1)
    | '\\' => .ok (c, 1)
    | '/' => .ok (c, 1)
    | 'b' => .ok (Char.ofNat 0x08, 1)
    | 'f' => .ok (Char.ofNat 0x0C, 1)
    | 'n' => .ok ('\n', 1)
    | 'r' => .ok ('\r', 1)
    | 't' => .ok ('\t', 1)
    | 'u' =>
      -- the four digits may not be the last of the text, which has a quote to come
      if (rest.drop 4).isEmpty then .error .badUnicodeEscape
      else
        match hexUnit? rest with
        | none => .error .badUnicodeEscape
        | some high => .ok (charOfCode high, 5)
    | _ => .error .badEscape

/-- The second half of a pair of surrogates, after a first half: `none` if no such escape stands
there, else its unit, or a refusal. -/
def lowHalf? (rest : Text) : Option (Option Nat) :=
  if !(rest.drop 6).isEmpty && "\\u".toList.isPrefixOf rest then some (hexUnit? (rest.drop 2))
  else none

/-- The first half of a pair of surrogates that the escape `uXXXX` writes. -/
def highHalf? (text : Text) : Option Nat :=
  match text with
  | 'u' :: rest =>
    (hexUnit? rest).bind fun n => if 0xD800 ≤ n && n ≤ 0xDBFF then some n else none
  | _ => none

/-- The characters of a text after its opening quote, and what is left after the closing one.
`opening` is what was left at the opening quote. -/
def textFrom (opening : Nat) (text : Text) : Except Failure (Text × Text) :=
  match text with
  | [] => .error ⟨.unterminated, opening⟩
  | c :: rest =>
    if c == '"' then .ok ([], rest)
    else if c == '\\' then
      match escape rest with
      | .error .unterminated => .error ⟨.unterminated, opening⟩
      | .error .badUnicodeEscape => .error ⟨.badUnicodeEscape, rest.length⟩
      | .error problem => .error ⟨problem, rest.length + 1⟩
      | .ok (d, n) =>
        match highHalf? rest, lowHalf? (rest.drop n) with
        | some _, some none => .error ⟨.badUnicodeEscape, (rest.drop (n + 1)).length⟩
        | some high, some (some low) =>
          if 0xDC00 ≤ low && low ≤ 0xDFFF then do
            let joined := Char.ofNat (0x10000 + (high - 0xD800) * 0x400 + (low - 0xDC00))
            let (more, left) ← textFrom opening (rest.drop (n + 6))
            return (joined :: more, left)
          else do
            -- the first half stands alone, and the escape behind it is read by itself
            let (more, left) ← textFrom opening (rest.drop n)
            return (d :: more, left)
        | _, _ => do
          let (more, left) ← textFrom opening (rest.drop n)
          return (d :: more, left)
    else if c.toNat ≤ 0x1F then .error ⟨.controlCharacter, rest.length + 1⟩
    else do
      let (more, left) ← textFrom opening rest
      return (c :: more, left)
termination_by text.length
decreasing_by all_goals simp only [List.length_drop, List.length_cons]; omega

/-! ## Numbers -/

/-- The digits of a whole number: a zero alone, or no zero in front. -/
def wholeDigits (text : Text) : Text :=
  match text with
  | '0' :: _ => ['0']
  | _ => text.takeWhile isAsciiDigit

/-- The digits after a point, if the text starts with a point and a digit. -/
def fractionDigits (text : Text) : Text :=
  match text with
  | '.' :: rest => rest.takeWhile isAsciiDigit
  | _ => []

/-- The exponent that a text starts with: its length and its value. -/
def exponentPart (text : Text) : Option (Nat × Int) :=
  match text with
  | c :: rest =>
    if c == 'e' || c == 'E' then
      let signed := rest.head? == some '-' || rest.head? == some '+'
      let digits := (rest.drop (if signed then 1 else 0)).takeWhile isAsciiDigit
      if digits.isEmpty then none
      else
        let size := Decimal.digitsValue digits
        some (1 + (if signed then 1 else 0) + digits.length,
          if rest.head? == some '-' then -(size : Int) else size)
    else none
  | [] => none

/-- A number, and what is left after it. -/
def numberFrom (text : Text) : Except Failure (Value × Text) :=
  let negative := text.head? == some '-'
  let unsigned := if negative then text.drop 1 else text
  let whole := wholeDigits unsigned
  if whole.isEmpty then .error ⟨.expectingValue, text.length⟩
  else
    let afterWhole := unsigned.drop whole.length
    let fraction := fractionDigits afterWhole
    let afterFraction := afterWhole.drop (if fraction.isEmpty then 0 else fraction.length + 1)
    let power := exponentPart afterFraction
    let left := afterFraction.drop ((power.map (·.1)).getD 0)
    if fraction.isEmpty && power.isNone then
      if Decimal.maxDigits < whole.length then .error ⟨.tooManyDigits whole.length, text.length⟩
      else
        let n : Int := Decimal.digitsValue whole
        .ok (.int (if negative then -n else n), left)
    else
      let exponent := (power.map (·.2)).getD 0 - fraction.length
      .ok (.float (Decimal.floatOf negative (whole ++ fraction) exponent), left)

/-! ## Values -/

/-- The names that stand for a value. -/
def names : List (String × Value) :=
  [("null", .null), ("true", .bool true), ("false", .bool false), ("NaN", .float (0.0 / 0.0)),
    ("Infinity", .float (1.0 / 0.0)), ("-Infinity", .float (-1.0 / 0.0))]

/-- A name or a number. -/
def atomFrom (text : Text) : Except Failure (Value × Text) :=
  match names.find? fun (name, _) => name.toList.isPrefixOf text with
  | some (name, value) => .ok (value, text.drop name.length)
  | none => numberFrom text

mutual

/-- The value that a text starts with, and what is left after it. `fuel` bounds the number of
steps. -/
def valueFrom : (fuel : Nat) → Text → Except Failure (Value × Text)
  | 0, text => .error ⟨.expectingValue, text.length⟩
  | fuel + 1, text =>
    match text with
    | '"' :: rest => do
      let (s, left) ← textFrom (rest.length + 1) rest
      return (.text s, left)
    | '[' :: rest =>
      match skipBlanks rest with
      | ']' :: left => .ok (.list [], left)
      | items => do
        let (values, left) ← itemsFrom fuel items
        return (.list values, left)
    | '\x7b' :: rest =>
      match skipBlanks rest with
      | '\x7d' :: left => .ok (.map [], left)
      | entries => do
        let (pairs, left) ← entriesFrom fuel entries
        return (.map (Value.ofEntries pairs), left)
    | _ => atomFrom text

/-- The items of a list up to its closing bracket. -/
def itemsFrom : (fuel : Nat) → Text → Except Failure (List Value × Text)
  | 0, text => .error ⟨.expectingValue, text.length⟩
  | fuel + 1, text => do
    let (value, rest) ← valueFrom fuel text
    match skipBlanks rest with
    | ']' :: left => return ([value], left)
    | ',' :: more => do
      let (values, left) ← itemsFrom fuel (skipBlanks more)
      return (value :: values, left)
    | other => throw ⟨.expectingComma, other.length⟩

/-- The entries of a mapping up to its closing brace. -/
def entriesFrom : (fuel : Nat) → Text → Except Failure (List (Value × Value) × Text)
  | 0, text => .error ⟨.expectingKey, text.length⟩
  | fuel + 1, text =>
    match text with
    | '"' :: keyText => do
      let (key, rest) ← textFrom (keyText.length + 1) keyText
      match skipBlanks rest with
      | ':' :: afterColon => do
        let (value, rest) ← valueFrom fuel (skipBlanks afterColon)
        match skipBlanks rest with
        | '\x7d' :: left => return ([(.text key, value)], left)
        | ',' :: more => do
          let (pairs, left) ← entriesFrom fuel (skipBlanks more)
          return ((.text key, value) :: pairs, left)
        | other => throw ⟨.expectingComma, other.length⟩
      | other => throw ⟨.expectingColon, other.length⟩
    | _ => .error ⟨.expectingKey, text.length⟩

end

/-- The value that a whole text writes. -/
def parse (text : Text) : Except ReadError Value :=
  if text.head? == some (Char.ofNat 0xFEFF) then .error (.at text .byteOrderMark 0)
  else
    -- values and the lists around them take turns, so each character has two steps
    match valueFrom (2 * text.length + 2) (skipBlanks text) with
    | .error e => .error (.at text e.problem (text.length - e.left))
    | .ok (value, rest) =>
      match skipBlanks rest with
      | [] => .ok value
      | left => .error (.at text .extraData (text.length - left.length))

end UseOrder.Json
