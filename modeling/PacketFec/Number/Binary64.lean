/-!
# Numbers of double precision

A finite number of double precision is a sign and a `Dyadic`: a mantissa below 2^53 and a power of two. All
arithmetic on them is exact arithmetic on natural numbers, followed by one rounding to the nearest number
that the format holds, where a tie goes to the even mantissa.

* `Dyadic.nearest`: the rounding.
* `Dyadic.percentage`: the share that one count has in another, in percent, rounded twice.
* `Binary64`: all values of the format.
-/

namespace PacketFec

/-- A power of two, or one where the exponent is negative. -/
def twoTo (e : Int) : Nat := Nat.pow 2 e.toNat

/-- A power of ten, or one where the exponent is negative. -/
def tenTo (e : Int) : Nat := Nat.pow 10 e.toNat

/-- Which of two neighbours is taken for a number in the middle between them. -/
inductive Tie where
  /-- The even one. -/
  | even
  /-- The greater one. -/
  | greater
  deriving DecidableEq

/-- Whether a number in the middle between `n` and `n + 1` is rounded to `n + 1`. -/
def Tie.GoesUp : Tie → Nat → Prop
  | even, n => n % 2 = 1
  | greater, _ => True

instance : (tie : Tie) → (n : Nat) → Decidable (tie.GoesUp n)
  | .even, n => inferInstanceAs (Decidable (n % 2 = 1))
  | .greater, _ => inferInstanceAs (Decidable True)

/-- The quotient of two numbers rounded to the nearest natural number. -/
def roundNearest (tie : Tie) (num den : Nat) : Nat :=
  let q := num / den
  let r := num % den
  if 2 * r > den ∨ (2 * r = den ∧ tie.GoesUp q) then q + 1 else q

/-- The number `mantissa * 2 ^ exponent`. -/
structure Dyadic where
  mantissa : Nat
  exponent : Int
  deriving DecidableEq

namespace Dyadic

/-- The least exponent of double precision. -/
def minExponent : Int := -1074

/-- The greatest exponent of double precision. -/
def maxExponent : Int := 971

/-- One past the largest mantissa of double precision. -/
def mantissaLimit : Nat := 9007199254740992

/-- Zero. -/
def zero : Dyadic := ⟨0, minExponent⟩

/-- The numerator of the number as a fraction. -/
def num (d : Dyadic) : Nat := d.mantissa * twoTo d.exponent

/-- The denominator of the number as a fraction. -/
def den (d : Dyadic) : Nat := twoTo (-d.exponent)

/-- The exponent of the power of two at or below a fraction. -/
def logFloor (num den : Nat) : Int :=
  let l : Int := (num.log2 : Int) - den.log2
  if num * twoTo (-l) ≥ den * twoTo l then l else l - 1

/-- The number of double precision that is nearest to a fraction. Its exponent may be too great for the
format. -/
def nearest (num den : Nat) : Dyadic :=
  if num = 0 then zero
  else
    let e := max minExponent (logFloor num den - 52)
    let m := roundNearest .even (num * twoTo (-e)) (den * twoTo e)
    if m = mantissaLimit then ⟨mantissaLimit / 2, e + 1⟩ else ⟨m, e⟩

/-- The number nearest to a count. -/
def ofNat (n : Nat) : Dyadic := nearest n 1

/-- The quotient of two numbers. -/
def div (a b : Dyadic) : Dyadic := nearest (a.num * b.den) (a.den * b.num)

/-- The product of two numbers. -/
def mul (a b : Dyadic) : Dyadic := nearest (a.num * b.num) (a.den * b.den)

/-- The share of `part` in `whole`, in percent. -/
def percentage (part whole : Nat) : Dyadic := mul (div (ofNat part) (ofNat whole)) (ofNat 100)

end Dyadic

/-- A value of double precision. -/
inductive Binary64 where
  /-- No number. -/
  | nan
  /-- Beyond all finite numbers. -/
  | infinite (negative : Bool)
  /-- A finite number; zero has a sign too. -/
  | finite (negative : Bool) (magnitude : Dyadic)
  deriving DecidableEq

namespace Binary64

/-- The value nearest to a fraction with a sign. -/
def ofRatio (negative : Bool) (num den : Nat) : Binary64 :=
  let d := Dyadic.nearest num den
  if d.exponent > Dyadic.maxExponent then infinite negative else finite negative d

/-- Whether the value is a probability: at least zero, of either sign, and at most one. -/
def IsProbability : Binary64 → Prop
  | finite negative d => (negative = false ∨ d.mantissa = 0) ∧ d.num ≤ d.den
  | _ => False

instance : DecidablePred IsProbability := fun x => by
  cases x <;> unfold IsProbability <;> infer_instance

end Binary64

end PacketFec
