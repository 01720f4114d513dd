import PacketFec.Error
import PacketFec.Limits

/-!
# Checked arithmetic on counts

Counts are natural numbers that a 64-bit word has to hold. The operations here give the fault that a count
outside that range, or a zero divisor, stands for, and the plain result otherwise.

* `Checked.bind_eq_ok`: a sequence of checked steps succeeds where each of them does.
-/

namespace PacketFec.Checked

/-- The sum of two counts. -/
def add (a b : Nat) : Except Error Nat :=
  if a + b < wordLimit then .ok (a + b) else .error .overflow

/-- The difference of two counts, which must not be negative. -/
def sub (a b : Nat) : Except Error Nat :=
  if b ≤ a then .ok (a - b) else .error .overflow

/-- The quotient of two counts. -/
def div (a b : Nat) : Except Error Nat :=
  if b = 0 then .error .zeroDivisor else .ok (a / b)

/-- The remainder of two counts. -/
def mod (a b : Nat) : Except Error Nat :=
  if b = 0 then .error .zeroDivisor else .ok (a % b)

variable {a b : Nat}

theorem add_eq (h : a + b < wordLimit) : add a b = .ok (a + b) := if_pos h

/-- What `add` gives, if it gives something. -/
theorem eq_add {c : Nat} (h : add a b = .ok c) : c = a + b := by
  unfold add at h
  split at h
  · exact (Except.ok.inj h).symm
  · cases h

theorem sub_eq (h : b ≤ a) : sub a b = .ok (a - b) := if_pos h

theorem div_eq (h : 0 < b) : div a b = .ok (a / b) := if_neg (by omega)

theorem mod_eq (h : 0 < b) : mod a b = .ok (a % b) := if_neg (by omega)

variable {ε α β : Type}

/-- A sequence succeeds where both of its steps do. -/
theorem bind_eq_ok {x : Except ε α} {f : α → Except ε β} {r : β} :
    x >>= f = .ok r ↔ ∃ v, x = .ok v ∧ f v = .ok r := by
  cases x with
  | error e => exact ⟨nofun, fun ⟨_, h, _⟩ => nomatch h⟩
  | ok v => exact ⟨fun h => ⟨v, rfl, h⟩, fun ⟨_, h, hr⟩ => Except.ok.inj h ▸ hr⟩

theorem ok_bind (v : α) (f : α → Except ε β) : Except.ok v >>= f = f v := rfl

end PacketFec.Checked
