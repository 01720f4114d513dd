import Mathlib
import PacketFec.Checked
import PacketFec.Hex

/-!
# Hexadecimal text, digit by digit

A text spells bytes when it consists of two digits for each of them, the high one first, in either case. The reader
works on the bytes of the UTF-8 form. A character outside ASCII has no byte below 128 in that form, and a digit is such
a byte, so the reader gives bytes exactly for the texts that spell them.

* `Hex.Spells`: the texts of some bytes.
* `Hex.decode_eq_ok_iff`: **reading gives the bytes that a text spells, and nothing for other texts.**
-/

namespace PacketFec.Hex

variable {c high low : Char} {cs ds : List Char} {n : ℕ} {b d : UInt8} {digits : List UInt8} {bs : Bytes}

/-- A character that is the digit of a value, in either case. -/
def IsDigit (c : Char) (n : ℕ) : Prop := n < 16 ∧ (c = Nat.digitChar n ∨ c = (Nat.digitChar n).toUpper)

instance (c : Char) (n : ℕ) : Decidable (IsDigit c n) := by unfold IsDigit; infer_instance

/-- The characters that spell some bytes. -/
inductive Spells : List Char → Bytes → Prop
  | nil : Spells [] []
  | cons {high low : Char} {h l : ℕ} {rest : List Char} {bs : Bytes} (hhigh : IsDigit high h) (hlow : IsDigit low l)
      (hrest : Spells rest bs) : Spells (high :: low :: rest) (UInt8.ofNat (16 * h + l) :: bs)

/-! ### Digits -/

theorem digit?_of_isDigit (h : IsDigit c n) : digit? (UInt8.ofNat c.toNat) = some (UInt8.ofNat n) := by
  have hall : ∀ n : Fin 16, digit? (UInt8.ofNat (Nat.digitChar n).toNat) = some (UInt8.ofNat n) ∧
      digit? (UInt8.ofNat (Nat.digitChar n).toUpper.toNat) = some (UInt8.ofNat n) := by decide +kernel
  obtain ⟨hn, rfl | rfl⟩ := h
  · exact (hall ⟨n, hn⟩).1
  · exact (hall ⟨n, hn⟩).2

theorem isDigit_of_digit? (h : digit? b = some d) : IsDigit (Char.ofNat b.toNat) d.toNat := by
  have hdecimal : ∀ n : Fin 10, IsDigit (Char.ofNat (48 + n)) n := by decide
  have hlower : ∀ n : Fin 6, IsDigit (Char.ofNat (97 + n)) (10 + n) := by decide
  have hupper : ∀ n : Fin 6, IsDigit (Char.ofNat (65 + n)) (10 + n) := by decide
  have hsub : ∀ c : UInt8, c.toNat ≤ b.toNat → (b - c).toNat = b.toNat - c.toNat := by
    intro c hc
    exact UInt8.toNat_sub_of_le b c (UInt8.le_iff_toNat_le.2 hc)
  unfold digit? at h
  simp only [UInt8.le_iff_toNat_le, UInt8.reduceToNat] at h
  split at h
  · rename_i hrange
    obtain rfl := Option.some.inj h
    have hdigit := hdecimal ⟨b.toNat - 48, by omega⟩
    have hvalue : (b - 48).toNat = b.toNat - 48 := hsub 48 hrange.1
    rw [hvalue]
    rwa [Nat.add_sub_cancel' hrange.1] at hdigit
  split at h
  · rename_i hrange
    obtain rfl := Option.some.inj h
    have hdigit := hlower ⟨b.toNat - 97, by omega⟩
    have hvalue : (b - 87).toNat = b.toNat - 87 := hsub 87 (le_trans (by decide) hrange.1)
    rw [hvalue, show b.toNat - 87 = 10 + (b.toNat - 97) by omega]
    rwa [Nat.add_sub_cancel' hrange.1] at hdigit
  split at h
  · rename_i hrange
    obtain rfl := Option.some.inj h
    have hdigit := hupper ⟨b.toNat - 65, by omega⟩
    have hvalue : (b - 55).toNat = b.toNat - 55 := hsub 55 (le_trans (by decide) hrange.1)
    rw [hvalue, show b.toNat - 55 = 10 + (b.toNat - 65) by omega]
    rwa [Nat.add_sub_cancel' hrange.1] at hdigit
  · cases h

theorem toNat_of_isDigit (h : IsDigit c n) : c.toNat < 128 := by
  have hall : ∀ n : Fin 16, (Nat.digitChar n).toNat < 128 ∧ (Nat.digitChar n).toUpper.toNat < 128 := by decide
  obtain ⟨hn, rfl | rfl⟩ := h
  · exact (hall ⟨n, hn⟩).1
  · exact (hall ⟨n, hn⟩).2

theorem digitAt_eq_ok_iff {position : ℕ} : digitAt b position = .ok d ↔ digit? b = some d := by
  unfold digitAt
  cases digit? b <;> simp

theorem Spells.isDigit (h : Spells cs bs) : ∀ c ∈ cs, ∃ n, IsDigit c n := by
  induction h with
  | nil => exact nofun
  | cons hhigh hlow _ ih =>
    intro c hc
    rcases List.mem_cons.1 hc with rfl | hc
    · exact ⟨_, hhigh⟩
    rcases List.mem_cons.1 hc with rfl | hc
    · exact ⟨_, hlow⟩
    · exact ih c hc

/-! ### Digits as bytes -/

theorem pairs_of_spells (h : Spells cs bs) (position : ℕ) :
    pairs position (cs.map fun c => UInt8.ofNat c.toNat) = .ok bs ∧ cs.length % 2 = 0 := by
  induction h generalizing position with
  | nil => exact ⟨rfl, rfl⟩
  | @cons high low h l rest bs hhigh hlow hrest ih =>
    obtain ⟨hpairs, heven⟩ := ih (position + 2)
    refine ⟨?_, by simp only [List.length_cons]; omega⟩
    have hvalue : UInt8.ofNat h * 16 + UInt8.ofNat l = UInt8.ofNat (16 * h + l) := by
      rw [UInt8.ofNat_add, UInt8.ofNat_mul, UInt8.mul_comm]
      rfl
    rw [List.map_cons, List.map_cons, pairs, digitAt_eq_ok_iff.2 (digit?_of_isDigit hhigh),
      digitAt_eq_ok_iff.2 (digit?_of_isDigit hlow), hpairs]
    exact congrArg (fun b => Except.ok (b :: bs)) hvalue

theorem spells_of_pairs {position : ℕ} (h : pairs position digits = .ok bs) (heven : digits.length % 2 = 0) :
    ∃ cs, Spells cs bs ∧ digits = cs.map fun c => UInt8.ofNat c.toNat := by
  induction position, digits using pairs.induct generalizing bs with
  | case1 position high low rest ih =>
    rw [pairs] at h
    obtain ⟨x, hx, h⟩ := Checked.bind_eq_ok.1 h
    obtain ⟨y, hy, h⟩ := Checked.bind_eq_ok.1 h
    obtain ⟨more, hmore, h⟩ := Checked.bind_eq_ok.1 h
    cases h
    obtain ⟨cs, hcs, rfl⟩ := ih hmore (by simp only [List.length_cons] at heven; omega)
    have hbyte : ∀ b : UInt8, UInt8.ofNat (Char.ofNat b.toNat).toNat = b := by
      intro b
      have hb := b.toNat_lt
      rw [Char.toNat_ofNat, if_pos (.inl (by omega)), UInt8.ofNat_toNat]
    have hvalue : UInt8.ofNat (16 * x.toNat + y.toNat) = x * 16 + y := by
      rw [UInt8.ofNat_add, UInt8.ofNat_mul, UInt8.ofNat_toNat, UInt8.ofNat_toNat, UInt8.mul_comm]
      rfl
    refine ⟨Char.ofNat high.toNat :: Char.ofNat low.toNat :: cs, ?_, ?_⟩
    · rw [← hvalue]
      exact .cons (isDigit_of_digit? (digitAt_eq_ok_iff.1 hx)) (isDigit_of_digit? (digitAt_eq_ok_iff.1 hy)) hcs
    · rw [List.map_cons, List.map_cons, hbyte, hbyte]
  | case2 digits position hshort =>
    have hnil : digits = [] := by
      match digits, hshort with
      | [], _ => rfl
      | [_], _ => cases heven
      | a :: b :: rest, hshort => exact (hshort a b rest rfl).elim
    subst hnil
    cases h
    exact ⟨[], .nil, rfl⟩

/-! ### Digits as characters -/

/-- A character whose UTF-8 form begins with a byte below 128 is that byte. -/
theorem utf8EncodeChar_cases (c : Char) : c.toNat < 128 ∧ String.utf8EncodeChar c = [UInt8.ofNat c.toNat] ∨
    ∃ b rest, String.utf8EncodeChar c = b :: rest ∧ 128 ≤ b.toNat := by
  have hval : c.val.toNat = c.toNat := rfl
  unfold String.utf8EncodeChar
  simp only [hval]
  split
  · exact .inl ⟨by omega, rfl⟩
  · refine .inr ?_
    split
    · exact ⟨_, _, rfl, by rw [UInt8.toNat_ofNat']; omega⟩
    · split
      · exact ⟨_, _, rfl, by rw [UInt8.toNat_ofNat']; omega⟩
      · exact ⟨_, _, rfl, by rw [UInt8.toNat_ofNat']; omega⟩

/-- A text whose UTF-8 form is a row of ASCII characters consists of them. -/
theorem eq_of_flatMap_utf8EncodeChar (hds : ∀ c ∈ ds, c.toNat < 128)
    (h : cs.flatMap String.utf8EncodeChar = ds.map fun c => UInt8.ofNat c.toNat) : cs = ds := by
  induction cs generalizing ds with
  | nil => exact (List.map_eq_nil_iff.1 h.symm).symm
  | cons c rest ih =>
    rw [List.flatMap_cons] at h
    rcases utf8EncodeChar_cases c with ⟨hascii, hc⟩ | ⟨b, more, hc, hhigh⟩
    · rw [hc] at h
      obtain ⟨d, ds', rfl, hd, hrest⟩ := List.map_eq_cons_iff.1 h.symm
      have hd' := hds d List.mem_cons_self
      have hnat := congrArg UInt8.toNat hd
      rw [UInt8.toNat_ofNat', UInt8.toNat_ofNat', Nat.mod_eq_of_lt (by omega), Nat.mod_eq_of_lt (by omega)] at hnat
      rw [Char.toNat_inj.1 hnat, ih (fun c hc => hds c (List.mem_cons_of_mem d hc)) hrest.symm]
    · rw [hc] at h
      obtain ⟨d, ds', rfl, hd, -⟩ := List.map_eq_cons_iff.1 h.symm
      have hd' := hds d List.mem_cons_self
      rw [← hd, UInt8.toNat_ofNat'] at hhigh
      omega

theorem flatMap_utf8EncodeChar (hcs : ∀ c ∈ cs, c.toNat < 128) :
    cs.flatMap String.utf8EncodeChar = cs.map fun c => UInt8.ofNat c.toNat := by
  rw [List.map_eq_flatMap]
  refine List.flatMap_congr fun c hc => ?_
  rcases utf8EncodeChar_cases c with ⟨-, h⟩ | ⟨b, more, h, hhigh⟩
  · exact h
  · have hascii := hcs c hc
    have hval : c.val.toNat = c.toNat := rfl
    rw [String.utf8EncodeChar, hval, if_pos (by omega)]

/-- **Reading gives the bytes that a text spells, and nothing for other texts.** -/
theorem decode_eq_ok_iff {text : String} : decode text = .ok bs ↔ Spells text.toList bs := by
  unfold decode decodeDigits
  constructor
  · intro h
    split at h
    · rename_i heven
      obtain ⟨cs, hcs, heq⟩ := spells_of_pairs h heven
      have hascii : ∀ c ∈ cs, c.toNat < 128 := by
        intro c hc
        obtain ⟨n, hn⟩ := hcs.isDigit c hc
        exact toNat_of_isDigit hn
      rwa [eq_of_flatMap_utf8EncodeChar hascii heq]
    · cases h
  · intro h
    have hascii : ∀ c ∈ text.toList, c.toNat < 128 := by
      intro c hc
      obtain ⟨n, hn⟩ := h.isDigit c hc
      exact toNat_of_isDigit hn
    obtain ⟨hpairs, heven⟩ := pairs_of_spells h 0
    rw [flatMap_utf8EncodeChar hascii, List.length_map, if_pos heven]
    exact hpairs

/-- The written form of some bytes spells them. -/
theorem spells_encode (bs : Bytes) : Spells (encode bs).toList bs := by
  rw [encode, String.toList_ofList]
  induction bs with
  | nil => exact .nil
  | cons b rest ih =>
    have hb := b.toNat_lt
    have hvalue : b = UInt8.ofNat (16 * (b / 16).toNat + (b % 16).toNat) := by
      apply UInt8.toNat_inj.1
      rw [UInt8.toNat_ofNat', UInt8.toNat_div, UInt8.toNat_mod]
      show b.toNat = (16 * (b.toNat / 16) + b.toNat % 16) % 256
      omega
    rw [List.flatMap_cons]
    nth_rewrite 3 [hvalue]
    refine .cons ⟨?_, .inl rfl⟩ ⟨?_, .inl rfl⟩ ih
    · rw [UInt8.toNat_div]
      show b.toNat / 16 < 16
      omega
    · rw [UInt8.toNat_mod]
      exact Nat.mod_lt _ (by decide)

end PacketFec.Hex
