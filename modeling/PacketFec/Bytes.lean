/-!
# Byte strings

A byte string is a list of bytes. Numbers are written with their low byte first: `Bytes.little w n` is the
form of `n` in `w` bytes and `Bytes.ofLittle` reads such a form back.

* `Bytes.ofLittle_little`: what is written reads back, modulo the width.
* `Bytes.little_ofLittle`: every byte string is the form of the number it reads as.
-/

namespace PacketFec

/-- A byte string. -/
abbrev Bytes := List UInt8

namespace Bytes

/-- The `width` low bytes of `n`, low byte first. -/
def little : Nat → Nat → Bytes
  | 0, _ => []
  | width + 1, n => UInt8.ofNat n :: little width (n / 256)

/-- The number that a byte string stands for, low byte first. -/
def ofLittle : Bytes → Nat
  | [] => 0
  | b :: rest => b.toNat + 256 * ofLittle rest

/-- As many zeros as said. -/
def zeros (n : Nat) : Bytes := List.replicate n 0

/-- The first `n` bytes, filled up with zeros where there are fewer. -/
def resize (bs : Bytes) (n : Nat) (fill : UInt8) : Bytes :=
  bs.take n ++ List.replicate (n - bs.length) fill

/-- The bytes with those from `start` on replaced by `part`, the rest kept. -/
def overwrite (bs : Bytes) (start : Nat) (part : Bytes) : Bytes :=
  bs.take start ++ part ++ bs.drop (start + part.length)

/-- The bytes from position `start` up to position `stop`. -/
def slice (bs : Bytes) (start stop : Nat) : Bytes :=
  (bs.drop start).take (stop - start)

@[simp] theorem length_little (w n : Nat) : (little w n).length = w := by
  induction w generalizing n with
  | zero => rfl
  | succ w ih => simp [little, ih]

@[simp] theorem length_zeros (n : Nat) : (zeros n).length = n := by simp [zeros]

@[simp] theorem length_resize (bs : Bytes) (n : Nat) (fill : UInt8) :
    (bs.resize n fill).length = n := by
  simp [resize]; omega

theorem length_overwrite {bs part : Bytes} {start : Nat} (h : start + part.length ≤ bs.length) :
    (bs.overwrite start part).length = bs.length := by
  simp [overwrite]; omega

/-- From a position on stand the bytes written there, and behind them the old ones. -/
theorem drop_overwrite {bs part : Bytes} {start : Nat} (h : start ≤ bs.length) :
    (bs.overwrite start part).drop start = part ++ bs.drop (start + part.length) := by
  rw [overwrite, List.append_assoc]
  exact List.drop_left' (by rw [List.length_take]; omega)

/-- What is written in `w` bytes reads back modulo the numbers that `w` bytes can say. -/
theorem ofLittle_little (w n : Nat) : ofLittle (little w n) = n % Nat.pow 256 w := by
  induction w generalizing n with
  | zero => simp [little, ofLittle, Nat.mod_one]
  | succ w ih =>
    have hb : (UInt8.ofNat n).toNat = n % 256 := by simp
    rw [little, ofLittle, ih, hb, show Nat.pow 256 (w + 1) = 256 * Nat.pow 256 w from Nat.mul_comm _ _,
      Nat.mod_mul]

theorem ofLittle_lt (bs : Bytes) : ofLittle bs < Nat.pow 256 bs.length := by
  induction bs with
  | nil => simp [ofLittle]
  | cons b rest ih =>
    have hb := b.toNat_lt
    rw [List.length_cons, show Nat.pow 256 (rest.length + 1) = 256 * Nat.pow 256 rest.length from
      Nat.mul_comm _ _, ofLittle]
    omega

/-- A byte string is the form of the number that it reads as. -/
theorem little_ofLittle (bs : Bytes) : little bs.length (ofLittle bs) = bs := by
  induction bs with
  | nil => rfl
  | cons b rest ih =>
    have hb := b.toNat_lt
    have hq : (b.toNat + 256 * ofLittle rest) / 256 = ofLittle rest := by omega
    have hr : UInt8.ofNat (b.toNat + 256 * ofLittle rest) = b := by
      apply UInt8.toNat_inj.1
      simp only [UInt8.toNat_ofNat']
      omega
    simp only [List.length_cons, little, ofLittle, hq, hr, ih]

end Bytes

end PacketFec
