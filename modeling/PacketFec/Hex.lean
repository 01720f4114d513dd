import PacketFec.Bytes

/-!
# Hexadecimal text

Two digits to a byte, the high one first; both cases are read and the low one is written. Text is measured
in bytes of its UTF-8 form, so a character outside ASCII is several bytes, none of which is a digit.

* `Hex.decode`: the bytes that a text stands for.
* `Hex.encode`: the text of some bytes.
-/

namespace PacketFec.Hex

/-- Why a text stands for no bytes. -/
inductive Flaw where
  /-- A digit has no partner. -/
  | oddLength
  /-- A byte of the text is no digit. -/
  | badDigit (byte : UInt8) (position : Nat)
  deriving DecidableEq

/-- The value of a digit. -/
def digit? (b : UInt8) : Option UInt8 :=
  if 48 ≤ b ∧ b ≤ 57 then some (b - 48)
  else if 97 ≤ b ∧ b ≤ 102 then some (b - 87)
  else if 65 ≤ b ∧ b ≤ 70 then some (b - 55)
  else none

/-- The value of the digit at a position. -/
def digitAt (b : UInt8) (position : Nat) : Except Flaw UInt8 :=
  match digit? b with
  | some d => .ok d
  | none => .error (.badDigit b position)

/-- The bytes of digits, the first of which stands at a position. A digit without a partner is left. -/
def pairs : Nat → List UInt8 → Except Flaw Bytes
  | position, high :: low :: rest => do
    let h ← digitAt high position
    let l ← digitAt low (position + 1)
    return (h * 16 + l) :: (← pairs (position + 2) rest)
  | _, _ => .ok []

/-- The bytes that the digits of a text stand for. -/
def decodeDigits (text : List UInt8) : Except Flaw Bytes :=
  if text.length % 2 = 0 then pairs 0 text else .error .oddLength

/-- The bytes that a text stands for. -/
def decode (text : String) : Except Flaw Bytes :=
  decodeDigits (text.toList.flatMap String.utf8EncodeChar)

/-- A digit below sixteen as it is written. -/
def digit (n : UInt8) : Char := Nat.digitChar n.toNat

/-- The text of some bytes. -/
def encode (bs : Bytes) : String := String.ofList (bs.flatMap fun b => [digit (b / 16), digit (b % 16)])

/-- A byte as a quoted character. A quote, a backslash and a byte that is no printable character of the
first 256 are escaped. -/
def shown (b : UInt8) : String :=
  if b = 0 then "'\\0'"
  else if b = 9 then "'\\t'"
  else if b = 10 then "'\\n'"
  else if b = 13 then "'\\r'"
  else if b = 39 then "'\\''"
  else if b = 92 then "'\\\\'"
  else if b < 32 ∨ (127 ≤ b ∧ b ≤ 160) ∨ b = 173 then
    "'\\u\x7b" ++ String.ofList (Nat.toDigits 16 b.toNat) ++ "\x7d'"
  else String.ofList ['\'', Char.ofNat b.toNat, '\'']

/-- The text shown for a flaw. -/
def Flaw.message : Flaw → String
  | oddLength => "Odd number of digits"
  | badDigit byte position => "Invalid character " ++ shown byte ++ s!" at position {position}"

end PacketFec.Hex
