import PacketFec.Checked
import PacketFec.Limits
import PacketFec.Shard.Kind

/-!
# Group geometry

A sender numbers its shards in sequence and cuts the sequence into groups of `D` data shards followed by
`P` parity shards. The geometry `(D, P)` thus fixes the group of each sequence id, the position inside that
group, and whether data or parity stands there.

A `Geometry` holds any two counts. `Geometry.Valid` says which of them can number a group;
`Geometry.validate` decides it. All derived numbers are checked, because they are asked of invalid
geometries too: a group size is a 64-bit sum, and it is reduced to 32 bits before it divides a sequence id.

* `Geometry.validate_eq_ok_iff`: validation accepts the valid geometries.
* `Geometry.paws_eq`, `Geometry.groupCount_eq`, `Geometry.groupOf_eq`, `Geometry.kindAt_eq`: the derived
  numbers of a valid geometry.
-/

namespace PacketFec

/-- The data and parity shards of one group. -/
structure Geometry where
  /-- Data shards in a group. -/
  data : Nat
  /-- Parity shards in a group. -/
  parity : Nat
  deriving DecidableEq

namespace Geometry

/-- Shards in a group. -/
def total (g : Geometry) : Nat := g.data + g.parity

/-- Both kinds occur, and a field of 256 elements can number the shards of a group. -/
structure Valid (g : Geometry) : Prop where
  data_pos : 1 ≤ g.data
  parity_pos : 1 ≤ g.parity
  total_le : g.data + g.parity ≤ maxGroupSize

/-- Shards in a group, as a 64-bit count. -/
def size (g : Geometry) : Except Error Nat :=
  Checked.add g.data g.parity

/-- Accept the valid geometries. The size is summed up only where both counts are positive. -/
def validate (g : Geometry) : Except Error Unit :=
  if g.data = 0 ∨ g.parity = 0 then .error (.invalidShardCount g.data g.parity)
  else do
    if (← g.size) > maxGroupSize then throw (.invalidShardCount g.data g.parity)

/-- The low 32 bits of the group size, which divide sequence ids. -/
def stride (g : Geometry) : Except Error Nat := do
  return (← g.size) % seqidLimit

/-- Distinct group ids in the sequence space. -/
def groupCount (g : Geometry) : Except Error Nat := do
  Checked.div (seqidLimit - 1) (← g.stride)

/-- The ceiling at which sequence ids wrap: the largest 32-bit multiple of the group size. -/
def paws (g : Geometry) : Except Error Nat := do
  return (← g.groupCount) * (← g.stride)

/-- The group that a sequence id belongs to. -/
def groupOf (g : Geometry) (seqid : UInt32) : Except Error Nat := do
  Checked.div seqid.toNat (← g.stride)

/-- The kind of shard that stands at the position of a sequence id. -/
def kindAt (g : Geometry) (seqid : UInt32) : Except Error Kind := do
  let position ← Checked.mod seqid.toNat (← g.stride)
  return if position < g.data % seqidLimit then .data else .parity

theorem total_le_256 {g : Geometry} (h : g.Valid) : g.total ≤ 256 := h.total_le

theorem total_pos {g : Geometry} (h : g.Valid) : 0 < g.total := by
  have hd := h.data_pos
  unfold total
  omega

theorem size_eq {g : Geometry} (h : g.Valid) : g.size = .ok g.total :=
  Checked.add_eq (Nat.lt_of_le_of_lt h.total_le (by decide))

theorem stride_eq {g : Geometry} (h : g.Valid) : g.stride = .ok g.total := by
  have hlt : g.total < seqidLimit := Nat.lt_of_le_of_lt h.total_le (by decide)
  rw [stride, size_eq h]
  simp only [bind, Except.bind, pure, Except.pure, Nat.mod_eq_of_lt hlt]

theorem groupCount_eq {g : Geometry} (h : g.Valid) :
    g.groupCount = .ok ((seqidLimit - 1) / g.total) := by
  rw [groupCount, stride_eq h]
  exact Checked.div_eq (total_pos h)

theorem paws_eq {g : Geometry} (h : g.Valid) :
    g.paws = .ok ((seqidLimit - 1) / g.total * g.total) := by
  rw [paws, groupCount_eq h, stride_eq h]
  rfl

theorem groupOf_eq {g : Geometry} (h : g.Valid) (seqid : UInt32) :
    g.groupOf seqid = .ok (seqid.toNat / g.total) := by
  rw [groupOf, stride_eq h]
  exact Checked.div_eq (total_pos h)

theorem kindAt_eq {g : Geometry} (h : g.Valid) (seqid : UInt32) :
    g.kindAt seqid = .ok (if seqid.toNat % g.total < g.data then .data else .parity) := by
  have hlt : g.data < seqidLimit :=
    Nat.lt_of_le_of_lt (Nat.le_trans (Nat.le_add_right _ _) h.total_le) (by decide)
  rw [kindAt, stride_eq h]
  simp only [bind, Except.bind, Checked.mod_eq (total_pos h), Nat.mod_eq_of_lt hlt]
  rfl

/-- **Validation accepts the valid geometries.** -/
theorem validate_eq_ok_iff {g : Geometry} : g.validate = .ok () ↔ g.Valid := by
  constructor
  · intro h
    unfold validate at h
    split at h
    · cases h
    · rename_i hzero
      rw [not_or] at hzero
      unfold size Checked.add at h
      split at h
      · simp only [bind, Except.bind] at h
        split at h
        · cases h
        · rename_i hle
          exact ⟨by omega, by omega, by omega⟩
      · cases h
  · intro h
    have h1 := h.data_pos
    have h2 := h.parity_pos
    have h3 : ¬ g.total > maxGroupSize := Nat.not_lt.2 h.total_le
    unfold validate
    rw [if_neg (by omega), size_eq h]
    simp only [bind, Except.bind, if_neg h3]
    rfl

instance : DecidablePred Valid := fun g =>
  decidable_of_iff (1 ≤ g.data ∧ 1 ≤ g.parity ∧ g.data + g.parity ≤ maxGroupSize)
    ⟨fun ⟨a, b, c⟩ => ⟨a, b, c⟩, fun ⟨a, b, c⟩ => ⟨a, b, c⟩⟩

end Geometry

end PacketFec
