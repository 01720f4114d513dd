import PacketFec.Number.Binary64

/-!
# Decimal text of double precision numbers

* `Binary64.ofText?`: the value nearest to a decimal text.
* `Dyadic.shortest`: the fewest digits that read back, and of those the nearest to the number. Two can be as
  near, and the caller says which one is taken.
* `Binary64.plain`: those digits in positional notation, without an exponent; a tie goes to the greater.
* `Binary64.numeral`: those digits as a JSON numeral, with an exponent for very small and large numbers; a
  tie goes to the even last digit.
* `Dyadic.fixed2`: the number with two places behind the point, a tie going to the even digit.
-/

namespace PacketFec

/-- The number `digits * 10 ^ exponent`. -/
structure Decimal where
  digits : Nat
  exponent : Int
  deriving DecidableEq

namespace Decimal

/-- The decimal digits of the number in front of its power of ten. -/
def text (d : Decimal) : List Char := Nat.toDigits 10 d.digits

/-- The value of double precision nearest to a decimal number with a sign. Powers of ten far outside the
range of the format are not computed. -/
def toBinary64 (d : Decimal) (negative : Bool) : Binary64 :=
  let places : Int := d.text.length + d.exponent
  if d.digits = 0 ∨ places < -400 then .finite negative .zero
  else if places > 400 then .infinite negative
  else .ofRatio negative (d.digits * tenTo d.exponent) (tenTo (-d.exponent))

/-- The same number without zeros at the end of its digits. The first argument bounds the zeros. -/
def strip : Nat → Decimal → Decimal
  | 0, d => d
  | fuel + 1, d =>
    if d.digits % 10 = 0 then strip fuel ⟨d.digits / 10, d.exponent + 1⟩ else d

end Decimal

namespace Dyadic

/-- Decimal digits in front of the point of a fraction: zero or less where it is below one, by the zeros
behind the point. The first argument bounds them. -/
def decimalPlaces : Nat → Nat → Nat → Int
  | 0, _, _ => 0
  | fuel + 1, num, den =>
    if num ≥ den then (Nat.toDigits 10 (num / den)).length
    else if num * 10 ≥ den then 0
    else decimalPlaces fuel (num * 10) den - 1

/-- Whether a decimal number rounds to a dyadic one. All numbers up to the middles between it and its
neighbours do, and the middles themselves where its mantissa is even. -/
def RoundsTo (c : Decimal) (d : Dyadic) : Prop :=
  let lower := if d.mantissa = mantissaLimit / 2 ∧ d.exponent > minExponent then 4 * d.mantissa - 1
    else 4 * d.mantissa - 2
  let upper := 4 * d.mantissa + 2
  -- all three sides are multiplied by the denominators of the decimal and the dyadic scale
  let scale := tenTo (-c.exponent) * twoTo d.exponent
  let value := 4 * (c.digits * tenTo c.exponent) * twoTo (-d.exponent)
  if d.mantissa % 2 = 0 then lower * scale ≤ value ∧ value ≤ upper * scale
  else lower * scale < value ∧ value < upper * scale

instance (c : Decimal) (d : Dyadic) : Decidable (RoundsTo c d) := by
  unfold RoundsTo
  exact instDecidableIte

/-- The neighbour of a number on the grid of decimals with a given exponent that rounds to it, if there is
one; of two the nearer. -/
def onGrid (tie : Tie) (d : Dyadic) (exponent : Int) : Option Decimal :=
  let num := d.num * tenTo (-exponent)
  let den := d.den * tenTo exponent
  let below : Decimal := ⟨num / den, exponent⟩
  let above : Decimal := ⟨num / den + 1, exponent⟩
  if RoundsTo below d then
    if RoundsTo above d then some ⟨roundNearest tie num den, exponent⟩ else some below
  else if RoundsTo above d then some above
  else none

/-- The first decimal with at least `count` digits that rounds to a number of which `places` digits stand
in front of the point. -/
def search (tie : Tie) (d : Dyadic) (places : Int) : Nat → Nat → Decimal
  | 0, _ => ⟨d.num / d.den, 0⟩
  | fuel + 1, count =>
    match d.onGrid tie (places - count) with
    | some c => c.strip (count + 1)
    | none => search tie d places fuel (count + 1)

/-- The decimal with the fewest digits that rounds to a number other than zero, and of several the
nearest. Seventeen digits are always enough. -/
def shortest (tie : Tie) (d : Dyadic) : Decimal :=
  d.search tie (decimalPlaces 1100 d.num d.den) 17 1

/-- The number with two places behind the point. -/
def fixed2 (d : Dyadic) : String :=
  let hundredths := roundNearest .even (100 * d.num) d.den
  let pad := fun n => if n < 10 then s!"0{n}" else s!"{n}"
  s!"{hundredths / 100}." ++ pad (hundredths % 100)

end Dyadic

namespace Binary64

/-- A run of zeros. -/
def zeroDigits (n : Nat) : List Char := List.replicate n '0'

/-- A decimal in positional notation; `whole` stands behind the digits of a whole number. -/
def positional (c : Decimal) (whole : List Char) : List Char :=
  let ds := c.text
  let places := (ds.length + c.exponent).toNat
  if c.exponent ≥ 0 then ds ++ zeroDigits c.exponent.toNat ++ whole
  else if places > 0 then ds.take places ++ '.' :: ds.drop places
  else ['0', '.'] ++ zeroDigits (-c.exponent - ds.length).toNat ++ ds

/-- A decimal with one digit in front of the point and an exponent. -/
def scientific (c : Decimal) : List Char :=
  let ds := c.text
  let mantissa := match ds with
    | d :: e :: rest => d :: '.' :: e :: rest
    | _ => ds
  mantissa ++ 'e' :: (toString (ds.length + c.exponent - 1)).toList

/-- The sign of a negative number. -/
def sign (negative : Bool) : List Char := if negative then ['-'] else []

/-- The shortest text that reads back, without an exponent. Of two as near the greater is taken. -/
def plain : Binary64 → String
  | nan => "NaN"
  | infinite negative => String.ofList (sign negative ++ ['i', 'n', 'f'])
  | finite negative d =>
    String.ofList (sign negative ++ if d.mantissa = 0 then ['0'] else positional (d.shortest .greater) [])

/-- The shortest JSON numeral that reads back, of two as near the one whose last digit is even. Whole numbers
end in a point and a zero. An exponent is written below 10^-5 and from 10^16 on. -/
def numeral : Binary64 → List Char
  | finite negative d =>
    sign negative ++
      if d.mantissa = 0 then ['0', '.', '0']
      else
        let c := d.shortest .even
        let places : Int := c.text.length + c.exponent
        if -5 < places ∧ places ≤ 16 then positional c ['.', '0'] else scientific c
  | _ => "null".toList

/-- The digits at the front of a text, and the text behind. -/
def digitRun (s : List Char) : List Char × List Char :=
  (s.takeWhile Char.isDigit, s.dropWhile Char.isDigit)

/-- The number that digits stand for. -/
def ofDigits (ds : List Char) : Nat := ds.foldl (fun n c => 10 * n + (c.toNat - '0'.toNat)) 0

/-- An exponent from behind its letter on: a sign, if there is one, and digits to the end of the text. -/
def exponent? (s : List Char) : Option Int :=
  let (negative, s) := match s with
    | '+' :: rest => (false, rest)
    | '-' :: rest => (true, rest)
    | s => (false, s)
  let (ds, rest) := digitRun s
  if ds.isEmpty ∨ ¬ rest.isEmpty then none
  else some (if negative then -(ofDigits ds : Int) else ofDigits ds)

/-- A decimal number without a sign: digits with a point before, behind or among them, and an exponent if
there is one. -/
def unsigned? (s : List Char) : Option Decimal :=
  let (whole, rest) := digitRun s
  let (fraction, rest) := match rest with
    | '.' :: rest => digitRun rest
    | rest => ([], rest)
  if whole.isEmpty ∧ fraction.isEmpty then none
  else
    let mantissa := ofDigits (whole ++ fraction)
    match rest with
    | [] => some ⟨mantissa, -fraction.length⟩
    | c :: rest =>
      if c = 'e' ∨ c = 'E' then
        (exponent? rest).map fun e => ⟨mantissa, e - fraction.length⟩
      else none

/-- The value of a text: a decimal number, or a name of infinity or of no number in any case, behind a sign
if there is one. -/
def ofText? (s : String) : Option Binary64 :=
  let (negative, body) := match s.toList with
    | '+' :: rest => (false, rest)
    | '-' :: rest => (true, rest)
    | s => (false, s)
  let lower := body.map Char.toLower
  if lower = "nan".toList then some nan
  else if lower = "inf".toList ∨ lower = "infinity".toList then some (infinite negative)
  else (unsigned? body).map (·.toBinary64 negative)

end Binary64

end PacketFec
