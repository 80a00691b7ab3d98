import UseOrder.Text.Basic
import UseOrder.Text.Quoted

/-!
# UTF-8

Files hold bytes, and source text is their decoding as UTF-8. A file that is no UTF-8 is refused at
the first byte that cannot be part of a character, with a message that names the bytes concerned.
-/

namespace UseOrder.Utf8

/-- The bytes of a text. -/
def encode (text : Text) : List UInt8 :=
  text.flatMap String.utf8EncodeChar

/-- Why bytes are no text. -/
inductive Reason
  | invalidStart
  | invalidContinuation
  | unexpectedEnd
deriving DecidableEq, Repr

/-- A refusal: why, the first byte concerned, how many are, and where they start. -/
structure DecodeError where
  reason : Reason
  byte : UInt8
  count : Nat
  offset : Nat
deriving DecidableEq, Repr

/-- The wording of a reason. -/
def Reason.message : Reason → String
  | invalidStart => "invalid start byte"
  | invalidContinuation => "invalid continuation byte"
  | unexpectedEnd => "unexpected end of data"

/-- The message of a refusal. -/
def DecodeError.message (e : DecodeError) : String :=
  "'utf-8' codec can't decode " ++
    (if e.count ≤ 1 then
      "byte 0x" ++ String.ofList (Text.hex 2 e.byte.toNat) ++ " in position " ++ Nat.repr e.offset
    else
      "bytes in position " ++ Nat.repr e.offset ++ "-" ++ Nat.repr (e.offset + e.count - 1)) ++
    ": " ++ e.reason.message

/-- The range of the second byte of a character, given its first byte, and the number of bytes. -/
def leadByte? (b : Nat) : Option (Nat × Nat × Nat) :=
  -- the narrow ranges leave out overlong forms, surrogates and codes past the last character
  if 0xC2 ≤ b && b ≤ 0xDF then some (0x80, 0xBF, 2)
  else if b == 0xE0 then some (0xA0, 0xBF, 3)
  else if b == 0xED then some (0x80, 0x9F, 3)
  else if 0xE1 ≤ b && b ≤ 0xEF then some (0x80, 0xBF, 3)
  else if b == 0xF0 then some (0x90, 0xBF, 4)
  else if 0xF1 ≤ b && b ≤ 0xF3 then some (0x80, 0xBF, 4)
  else if b == 0xF4 then some (0x80, 0x8F, 4)
  else none

/-- Read the remaining `count` bytes of a character. `code` is what its bytes so far make, `low` and
`high` bound the next one, and `taken` counts the bytes so far. -/
def tailFrom (code low high taken : Nat) :
    (count : Nat) → List UInt8 → Except (Reason × Nat) (Nat × List UInt8)
  | 0, rest => .ok (code, rest)
  | _ + 1, [] => .error (.unexpectedEnd, taken)
  | count + 1, b :: rest =>
    if low ≤ b.toNat && b.toNat ≤ high then
      tailFrom (code * 64 + (b.toNat - 0x80)) 0x80 0xBF (taken + 1) count rest
    else .error (.invalidContinuation, taken)

/-- The value bits of a first byte. -/
def leadBits (b size : Nat) : Nat :=
  if size == 2 then b - 0xC0 else if size == 3 then b - 0xE0 else b - 0xF0

/-- Read one character. The number counts the bytes concerned by a refusal. -/
def charFrom (b : UInt8) (rest : List UInt8) : Except (Reason × Nat) (Char × Nat) :=
  let n := b.toNat
  if n < 0x80 then .ok (Char.ofNat n, 0)
  else
    match leadByte? n with
    | none => .error (.invalidStart, 1)
    | some (low, high, size) =>
      (tailFrom (leadBits n size) low high 1 (size - 1) rest).map
        fun (code, _) => (Char.ofNat code, size - 1)

/-- Decode bytes; `offset` is the place of the first of them. -/
def decodeFrom (offset : Nat) (bytes : List UInt8) : Except DecodeError Text :=
  match bytes with
  | [] => .ok []
  | b :: rest =>
    match charFrom b rest with
    | .error (reason, count) => .error ⟨reason, b, count, offset⟩
    | .ok (c, n) => (decodeFrom (offset + 1 + n) (rest.drop n)).map (c :: ·)
termination_by bytes.length
decreasing_by simp only [List.length_drop, List.length_cons]; omega

/-- The text that bytes are. -/
def decode (bytes : List UInt8) : Except DecodeError Text :=
  decodeFrom 0 bytes

end UseOrder.Utf8
