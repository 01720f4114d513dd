import PacketFec.Limits

/-!
# Distances between sequence ids and between groups

Sequence ids live on a circle of 2^32 values and group ids on a circle of as many values as there are
groups. A distance on such a circle is the signed residue of least size.

* `Serial.seqDistance_eq`: the distance of two sequence ids is their difference, read as a signed word.
-/

namespace PacketFec.Serial

/-- The signed distance from sequence id `b` to sequence id `a`, between -2^31 and 2^31 - 1. -/
def seqDistance (a b : UInt32) : Int :=
  ((a.toNat : Int) - b.toNat).bmod seqidLimit

/-- The signed distance from group `b` to group `a` on a circle of `groups` groups. It lies above minus
half of their number and at most at half of it. No groups at all count as one. -/
def groupDistance (a b groups : Nat) : Int :=
  let circle : Int := max groups 1
  let ahead := ((a : Int) - b) % circle
  if ahead > circle / 2 then ahead - circle else ahead

/-- The distance is the difference of the words, read as a signed word. -/
theorem seqDistance_eq (a b : UInt32) : seqDistance a b =
    if (a - b).toNat < 2147483648 then ((a - b).toNat : Int) else (a - b).toNat - 4294967296 := by
  have hlt := a.toNat_lt
  have hlt' := b.toNat_lt
  rw [UInt32.toNat_sub, seqDistance, seqidLimit, Int.bmod_def]
  omega

end PacketFec.Serial
