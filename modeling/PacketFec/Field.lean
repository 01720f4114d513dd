/-!
# The field of 256 elements

A byte stands for a polynomial over the field of two elements, its bit `i` for the coefficient of `x ^ i`.
Bytes are added by exclusive or and multiplied modulo `x ^ 8 + x ^ 4 + x ^ 3 + x ^ 2 + 1`. Subtraction is
addition.
-/

namespace PacketFec.Field

/-- The sum of two elements. -/
@[inline] def add (a b : UInt8) : UInt8 := a ^^^ b

/-- The product with `x`: a shift, less the modulus where a coefficient of `x ^ 8` arises. -/
@[inline] def double (a : UInt8) : UInt8 := (a <<< 1) ^^^ ((a >>> 7) * 0x1D)

/-- The coefficient of `x ^ i`, as zero or one. -/
@[inline] def coefficient (a i : UInt8) : UInt8 := (a >>> i) &&& 1

/-- A step of Horner's rule: the accumulator times `x`, plus `a` where the coefficient is one. -/
@[inline] def horner (a coefficient acc : UInt8) : UInt8 := double acc ^^^ (coefficient * a)

/-- The product of two elements: the coefficients of `b` from the highest to the lowest. -/
def mul (a b : UInt8) : UInt8 :=
  horner a (coefficient b 0) <| horner a (coefficient b 1) <| horner a (coefficient b 2) <|
  horner a (coefficient b 3) <| horner a (coefficient b 4) <| horner a (coefficient b 5) <|
  horner a (coefficient b 6) <| horner a (coefficient b 7) 0

/-- The inverse of an element other than zero: its power 254. The inverse of zero is zero. -/
def inv (a : UInt8) : UInt8 :=
  let square := fun b => mul b b
  let a2 := square a
  let a3 := mul a2 a
  let a12 := square (square a3)
  let a15 := mul a12 a3
  let a240 := square (square (square (square a15)))
  mul (mul a240 a12) a2

end PacketFec.Field
