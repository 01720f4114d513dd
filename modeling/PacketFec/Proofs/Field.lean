import Mathlib
import PacketFec.Field

/-!
# The bytes are a field

`Field.add`, `Field.mul` and `Field.inv` make a field out of the 256 bytes. The product is Horner's rule
over the coefficients of its second factor, so every law comes down to what one step of the rule does.

* `Field.horner_induction`: every byte is reached from zero by doubling and by adding one.
* `Field.mul_comm`, `Field.mul_assoc`, `Field.add_mul`: the laws of a commutative ring.
* `Element.pow_256`: raising to the power 256 changes nothing, as squaring is additive.
* `Element.instField`: **the bytes are a field.** An element other than zero has its power 254 as inverse,
  because its power 255 is idempotent and only zero and one are.
-/

namespace PacketFec

namespace Field

variable {a b c : UInt8}

/-! ### One step of Horner's rule -/

theorem shiftRight_seven (a : UInt8) : a >>> 7 = 0 ∨ a >>> 7 = 1 := by
  have h : (a >>> 7).toNat = a.toNat / 128 := by
    simp [UInt8.toNat_shiftRight, Nat.shiftRight_eq_div_pow]
  have ha := a.toNat_lt
  rcases (show (a >>> 7).toNat = 0 ∨ (a >>> 7).toNat = 1 by omega) with h0 | h1
  · exact Or.inl (UInt8.toNat_inj.1 h0)
  · exact Or.inr (UInt8.toNat_inj.1 h1)

theorem coefficient_cases (a i : UInt8) : coefficient a i = 0 ∨ coefficient a i = 1 := by
  have h : (coefficient a i).toNat = (a >>> i).toNat % 2 := by
    simp [coefficient, UInt8.toNat_and, Nat.and_one_is_mod]
  rcases (show (coefficient a i).toNat = 0 ∨ (coefficient a i).toNat = 1 by omega) with h0 | h1
  · exact Or.inl (UInt8.toNat_inj.1 h0)
  · exact Or.inr (UInt8.toNat_inj.1 h1)

theorem double_xor (a b : UInt8) : double (a ^^^ b) = double a ^^^ double b := by
  have htop : (a ^^^ b) >>> (7 : UInt8) * 0x1D =
      a >>> (7 : UInt8) * (0x1D : UInt8) ^^^ b >>> (7 : UInt8) * (0x1D : UInt8) := by
    rw [UInt8.shiftRight_xor]
    rcases shiftRight_seven a with ha | ha <;> rcases shiftRight_seven b with hb | hb <;>
      rw [ha, hb] <;> decide
  unfold double
  rw [htop, UInt8.shiftLeft_xor]
  ac_rfl

theorem horner_xor (a b i acc acc' : UInt8) :
    horner (a ^^^ b) (coefficient c i) (acc ^^^ acc') =
      horner a (coefficient c i) acc ^^^ horner b (coefficient c i) acc' := by
  unfold horner
  rw [double_xor]
  rcases coefficient_cases c i with h | h <;> rw [h]
  · simp
  · simp only [UInt8.one_mul]
    ac_rfl

theorem horner_double (a i acc : UInt8) :
    horner (double a) (coefficient c i) (double acc) = double (horner a (coefficient c i) acc) := by
  unfold horner
  rw [double_xor]
  rcases coefficient_cases c i with h | h <;> rw [h]
  · simp [double]
  · simp only [UInt8.one_mul]

/-- The lowest coefficient of a byte and the coefficients above it make up the byte. -/
theorem horner_digit (a : UInt8) : horner 1 (coefficient a 0) (a >>> 1) = a := by
  have h : ∀ n < 256, horner 1 (coefficient (UInt8.ofNat n) 0) (UInt8.ofNat n >>> 1) = UInt8.ofNat n := by
    decide +kernel
  simpa using h a.toNat a.toNat_lt

/-- **Every byte is reached from zero by doubling and by adding one.** -/
theorem horner_induction {P : UInt8 → Prop} (zero : P 0) (double : ∀ a, P a → P (double a))
    (succ : ∀ a, P a → P (a ^^^ 1)) (a : UInt8) : P a := by
  -- on the number that the byte stands for: the byte without its lowest coefficient stands for half of it
  induction hn : a.toNat using Nat.strong_induction_on generalizing a with
  | _ n ih =>
    subst hn
    by_cases ha : a = 0
    · rw [ha]; exact zero
    have hhalf : (a >>> 1).toNat = a.toNat / 2 := by
      simp [UInt8.toNat_shiftRight, Nat.shiftRight_eq_div_pow]
    have hpos : a.toNat ≠ 0 := fun h => ha (UInt8.toNat_inj.1 h)
    have hP := double _ (ih _ (by omega) (a >>> 1) rfl)
    rw [← horner_digit a]
    unfold horner
    rcases coefficient_cases a 0 with h | h <;> rw [h]
    · simpa using hP
    · simpa using succ _ hP

/-! ### The ring laws -/

@[simp] theorem zero_mul (b : UInt8) : mul 0 b = 0 := by
  simp [mul, horner, double]

@[simp] theorem mul_zero (a : UInt8) : mul a 0 = 0 := by
  simp [mul, horner, double, coefficient]

theorem add_mul (a b c : UInt8) : mul (a ^^^ b) c = mul a c ^^^ mul b c := by
  unfold mul
  rw [← UInt8.xor_self (a := 0)]
  simp only [horner_xor]
  simp

theorem double_mul (a b : UInt8) : mul (double a) b = double (mul a b) := by
  unfold mul
  rw [show (0 : UInt8) = double 0 from rfl]
  simp only [horner_double]
  rfl

theorem one_mul (b : UInt8) : mul 1 b = b := by
  have h : ∀ n < 256, mul 1 (UInt8.ofNat n) = UInt8.ofNat n := by decide +kernel
  simpa using h b.toNat b.toNat_lt

theorem mul_double (a b : UInt8) : mul a (double b) = double (mul a b) := by
  induction a using horner_induction with
  | zero => simp [double]
  | double a ih => rw [double_mul, ih, double_mul]
  | succ a ih => rw [add_mul, add_mul, ih, one_mul, one_mul, double_xor]

theorem mul_add (a b c : UInt8) : mul a (b ^^^ c) = mul a b ^^^ mul a c := by
  induction a using horner_induction with
  | zero => simp
  | double a ih => rw [double_mul, double_mul, double_mul, ih, double_xor]
  | succ a ih =>
    rw [add_mul, add_mul, add_mul, ih, one_mul, one_mul, one_mul]
    ac_rfl

theorem mul_one (a : UInt8) : mul a 1 = a := by
  induction a using horner_induction with
  | zero => simp
  | double a ih => rw [double_mul, ih]
  | succ a ih => rw [add_mul, ih, one_mul]

theorem mul_comm (a b : UInt8) : mul a b = mul b a := by
  induction a using horner_induction with
  | zero => simp
  | double a ih => rw [double_mul, mul_double, ih]
  | succ a ih => rw [add_mul, mul_add, ih, one_mul, mul_one]

theorem mul_assoc (a b c : UInt8) : mul (mul a b) c = mul a (mul b c) := by
  induction a using horner_induction with
  | zero => simp
  | double a ih => rw [double_mul, double_mul, double_mul, ih]
  | succ a ih => rw [add_mul, add_mul, add_mul, ih, one_mul, one_mul]

/-- Only zero and one are their own squares. -/
theorem eq_zero_or_one_of_mul_self {a : UInt8} (h : mul a a = a) : a = 0 ∨ a = 1 := by
  have hsq : ∀ n < 256, mul (UInt8.ofNat n) (UInt8.ofNat n) = UInt8.ofNat n → n ≤ 1 := by
    decide +kernel
  have hle := hsq a.toNat a.toNat_lt (by simpa using h)
  rcases (show a.toNat = 0 ∨ a.toNat = 1 by omega) with h0 | h1
  · exact Or.inl (UInt8.toNat_inj.1 h0)
  · exact Or.inr (UInt8.toNat_inj.1 h1)

end Field

/-! ### The field -/

/-- A byte as an element of the field. -/
@[ext]
structure Element where
  /-- The byte that stands for the element. -/
  byte : UInt8

namespace Element

instance : Zero Element := ⟨⟨0⟩⟩
instance : One Element := ⟨⟨1⟩⟩
instance : Add Element := ⟨fun a b => ⟨Field.add a.byte b.byte⟩⟩
instance : Mul Element := ⟨fun a b => ⟨Field.mul a.byte b.byte⟩⟩
instance : Neg Element := ⟨id⟩
instance : Inv Element := ⟨fun a => ⟨Field.inv a.byte⟩⟩

@[simp] theorem byte_zero : (0 : Element).byte = 0 := rfl
@[simp] theorem byte_one : (1 : Element).byte = 1 := rfl
@[simp] theorem byte_add (a b : Element) : (a + b).byte = Field.add a.byte b.byte := rfl
@[simp] theorem byte_mul (a b : Element) : (a * b).byte = Field.mul a.byte b.byte := rfl
@[simp] theorem byte_inv (a : Element) : (a⁻¹).byte = Field.inv a.byte := rfl

instance : CommRing Element :=
  CommRing.ofMinimalAxioms
    (fun _ _ _ => Element.ext (UInt8.xor_assoc _ _ _))
    (fun _ => Element.ext UInt8.zero_xor)
    (fun _ => Element.ext UInt8.xor_self)
    (fun _ _ _ => Element.ext (Field.mul_assoc _ _ _))
    (fun _ _ => Element.ext (Field.mul_comm _ _))
    (fun _ => Element.ext (Field.one_mul _))
    (fun _ _ _ => Element.ext (Field.mul_add _ _ _))

instance : CharP Element 2 :=
  CharTwo.of_one_ne_zero_of_two_eq_zero (fun h => absurd (congrArg byte h) (by decide))
    (by rw [← one_add_one_eq_two]; rfl)

theorem mk_double (b : UInt8) : (⟨Field.double b⟩ : Element) = ⟨2⟩ * ⟨b⟩ := by
  ext
  rw [byte_mul, show (2 : UInt8) = Field.double 1 from rfl, Field.double_mul, Field.one_mul]

/-- **Raising to the power 256 changes nothing**: it is additive, and `x` to that power is `x`. -/
theorem pow_256 (a : Element) : a ^ 2 ^ 8 = a := by
  have hx : (⟨2⟩ : Element) ^ 2 ^ 8 = ⟨2⟩ := by
    simp only [pow_succ 2, pow_zero, pow_mul, pow_two, one_mul]
    ext
    decide +kernel
  obtain ⟨b⟩ := a
  induction b using Field.horner_induction with
  | zero => exact zero_pow (by decide)
  | double b ih => rw [mk_double, mul_pow, hx, ih]
  | succ b ih =>
    rw [show (⟨b ^^^ 1⟩ : Element) = ⟨b⟩ + 1 from rfl, add_pow_char_pow, one_pow, ih]

theorem inv_eq_pow (a : Element) : a⁻¹ = a ^ 254 := by
  have h : a⁻¹ =
      let a2 := a * a
      let a3 := a2 * a
      let a12 := a3 * a3 * (a3 * a3)
      let a30 := a12 * a3 * (a12 * a3)
      let a60 := a30 * a30
      a60 * a60 * (a60 * a60) * a12 * a2 := rfl
  rw [h]
  ring

theorem mul_inv_cancel {a : Element} (ha : a ≠ 0) : a * a⁻¹ = 1 := by
  have hidem : a ^ 255 * a ^ 255 = a ^ 255 := by
    calc a ^ 255 * a ^ 255 = a ^ 2 ^ 8 * a ^ 254 := by ring
      _ = a ^ 255 := by rw [pow_256]; ring
  rw [inv_eq_pow, ← pow_succ']
  rcases Field.eq_zero_or_one_of_mul_self (congrArg byte hidem) with h | h
  · exfalso
    apply ha
    rw [← pow_256 a, show 2 ^ 8 = 255 + 1 from rfl, pow_succ, show a ^ 255 = 0 from Element.ext h, zero_mul]
  · exact Element.ext h

/-- **The bytes are a field.** -/
instance instField : Field Element where
  exists_pair_ne := ⟨0, 1, fun h => absurd (congrArg byte h) (by decide)⟩
  mul_inv_cancel := fun _ => mul_inv_cancel
  inv_zero := (inv_eq_pow 0).trans (zero_pow (by decide))
  nnqsmul := _
  nnqsmul_def := fun _ _ => rfl
  qsmul := _
  qsmul_def := fun _ _ => rfl

/-- Subtraction is addition. -/
theorem byte_sub (a b : Element) : (a - b).byte = Field.add a.byte b.byte := by
  rw [sub_eq_add_neg]
  rfl

end Element

end PacketFec
