import PacketFec.Limits

/-!
# JSON values

A value as it stands in a JSON text. Numerals that are plain digits are kept as natural numbers, all others
by their text. A string is kept as the pieces it is written with, because an escape can name a 16-bit unit
that is no character: such a string is no text, which matters only where a text is asked for.

* `Json.text?`: the characters that the pieces of a string spell.
* `Json.record?`: the numbers in a record with known fields.
-/

namespace PacketFec

/-- A piece of a string literal. -/
inductive Piece where
  /-- A character, as itself or by a short escape. -/
  | char (c : Char)
  /-- A 16-bit unit, by an escape of four hexadecimal digits. -/
  | unit (n : Nat)
  deriving DecidableEq

/-- A JSON value. -/
inductive Json where
  | null
  | bool (b : Bool)
  | natural (n : Nat)
  | numeral (text : List Char)
  | string (pieces : List Piece)
  | array (items : List Json)
  | object (members : List (List Piece × Json))

namespace Piece

/-- The pieces of a text without escapes. -/
def ofText (s : String) : List Piece := s.toList.map char

/-- Whether a unit opens a pair of surrogates. -/
def IsLeading (n : Nat) : Prop := 0xD800 ≤ n ∧ n < 0xDC00

/-- Whether a unit closes a pair of surrogates. -/
def IsTrailing (n : Nat) : Prop := 0xDC00 ≤ n ∧ n < 0xE000

instance (n : Nat) : Decidable (IsLeading n) := by unfold IsLeading; infer_instance

instance (n : Nat) : Decidable (IsTrailing n) := by unfold IsTrailing; infer_instance

/-- The character of a pair of surrogates. -/
def pair (leading trailing : Nat) : Char :=
  Char.ofNat (0x10000 + (leading - 0xD800) * 0x400 + (trailing - 0xDC00))

/-- The characters that some pieces spell: each leading surrogate must be followed by a trailing one, and
no trailing one stands alone. -/
def text? : List Piece → Option (List Char)
  | [] => some []
  | char c :: rest => (text? rest).map (c :: ·)
  | unit a :: unit b :: rest =>
    if IsLeading a then
      if IsTrailing b then (text? rest).map (pair a b :: ·) else none
    else if IsTrailing a then none
    else (text? (unit b :: rest)).map (Char.ofNat a :: ·)
  | unit a :: rest =>
    if IsLeading a ∨ IsTrailing a then none else (text? rest).map (Char.ofNat a :: ·)

end Piece

namespace Json

/-- A 64-bit count. -/
def count? : Json → Option Nat
  | natural n => if n < wordLimit then some n else none
  | _ => none

/-- The value of a field that may occur once: nothing where it does not occur, and a refusal where it
occurs twice or is no count. -/
def field? (members : List (List Char × Json)) (name : String) : Option (Option Nat) :=
  match members.filter fun m => m.1 = name.toList with
  | [] => some none
  | [m] => m.2.count?.map some
  | _ => none

/-- The members of an object with their names spelled out. -/
def named? (members : List (List Piece × Json)) : Option (List (List Char × Json)) :=
  members.mapM fun m => (Piece.text? m.1).map fun name => (name, m.2)

/-- The counts in the fields of a record, each where it is given. A record is an object with the fields as
members, others being ignored, or an array of the first fields in their order. -/
def record? (names : List String) : Json → Option (List (Option Nat))
  | object members => do
    let members ← named? members
    names.mapM (field? members)
  | array items =>
    if items.length ≤ names.length then do
      let counts ← items.mapM count?
      return counts.map some ++ List.replicate (names.length - items.length) none
    else none
  | _ => none

end Json

end PacketFec
