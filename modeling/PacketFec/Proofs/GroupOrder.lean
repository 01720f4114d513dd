import Mathlib
import PacketFec.Proofs.Sealing

/-!
# Groups keep their order across the wrap

A stream has no end, but sequence ids have: they wrap at the ceiling, which is the largest multiple of the group size
that fits into 32 bits. As a whole number of groups goes around, a position and its sequence id stand at the same place
of a group, and the circle of group ids has one place for each group that goes around. So the signed distance on that
circle tells how many groups lie between two positions, as long as these are no more than half a circle apart. At
exactly half a circle the distance is the positive one.

* `Serial.groupDistance_eq_iff`: **the distance is the one residue of the difference around zero.**
* `Geometry.KeepsOrder`: what the sequence ids of a stream keep of its positions.
* `Geometry.keepsOrder_seqidAt`: they keep it wherever the stream starts.
* `Geometry.groups_keep_order`: **both of it, for every geometry, every start and all positions.**
-/

namespace PacketFec

namespace Serial

variable {a b n : ℕ} {k : ℤ}

/-- No groups at all count as one. -/
theorem groupDistance_max_one (a b n : ℕ) : groupDistance a b (max n 1) = groupDistance a b n := by
  unfold groupDistance
  rw [Nat.cast_max, Nat.cast_one, max_assoc, max_self]

/-- **The distance is the one residue of the difference around zero.** -/
theorem groupDistance_eq_iff : groupDistance a b n = k ↔
    k ≡ (a : ℤ) - b [ZMOD (max n 1 : ℕ)] ∧ -((max n 1 : ℕ) : ℤ) < 2 * k ∧ 2 * k ≤ (max n 1 : ℕ) := by
  have hpos : 0 < max n 1 := lt_max_of_lt_right Nat.one_pos
  rw [← groupDistance_max_one]
  constructor
  · rintro rfl
    obtain ⟨hdvd, hlo, hhi⟩ := groupDistance_spec hpos a b
    exact ⟨Int.modEq_iff_dvd.2 hdvd, hlo, hhi⟩
  · rintro ⟨hcong, hlo, hhi⟩
    exact groupDistance_eq hpos (Int.modEq_iff_dvd.1 hcong) hlo hhi

end Serial

namespace Geometry

variable {g : Geometry} {base : ℕ}

/-- What the sequence ids of a stream keep of its positions, on a circle of `count` groups: the place in the group, the
kind that belongs there, and, up to half a circle, how many groups one position is ahead of another. -/
structure KeepsOrder (g : Geometry) (count : ℕ) (seq : ℕ → UInt32) : Prop where
  place : ∀ x, (seq x).toNat % g.total = x % g.total
  kind : ∀ x, g.kindAt (seq x) = .ok (if x % g.total < g.data then .data else .parity)
  group : ∀ x, ∃ k, g.groupOf (seq x) = .ok k ∧ k < count
  distance : ∀ i j group group' (k : ℤ), k = (j / g.total : ℕ) - (i / g.total : ℕ) → -(count : ℤ) < 2 * k →
    2 * k ≤ count → g.groupOf (seq i) = .ok group → g.groupOf (seq j) = .ok group' →
    Serial.groupDistance group' group count = k

/-- The group of a position, around the circle. -/
theorem groupOf_seqidAt (hg : g.Valid) (hbase : g.total ∣ base) (x : ℕ) :
    g.groupOf (g.seqidAt base x) = .ok ((base / g.total + x / g.total) % g.ring) := by
  rw [groupOf_eq hg, seqidAt_div hg hbase]

/-- **A stream keeps its order**, wherever it starts. -/
theorem keepsOrder_seqidAt (hg : g.Valid) (hbase : g.total ∣ base) : g.KeepsOrder g.ring (g.seqidAt base) where
  place := seqidAt_mod hg hbase
  kind := kindAt_seqidAt hg hbase
  group := fun x => ⟨_, groupOf_seqidAt hg hbase x, Nat.mod_lt _ (ring_pos hg)⟩
  distance := by
    intro i j group group' k hk hlo hhi hgroup hgroup'
    obtain rfl := Except.ok.inj ((groupOf_seqidAt hg hbase i).symm.trans hgroup)
    obtain rfl := Except.ok.inj ((groupOf_seqidAt hg hbase j).symm.trans hgroup')
    subst hk
    exact groupDistance_ring hg (base / g.total) _ _ hlo hhi

/-- **Groups keep their order across the wrap.** Every valid geometry has a ceiling and a number of groups. Let a stream
start at any multiple of the group size, and wrap at the ceiling. Then its ids are exact 32-bit words, which a
sender hands out one behind the other; each id has the place and the kind of its position, and a group below the number
of groups; and the distance between the groups of two positions is the number of groups between them, for all positions
between which there is at most half a circle. For all groups and every number of groups, the distance is the one number
around zero that is congruent to the difference. -/
theorem groups_keep_order :
    (∀ g : Geometry, g.Valid → ∃ paws count, g.paws = .ok paws ∧ g.groupCount = .ok count ∧
      ∀ base, g.total ∣ base →
        (∀ x, (UInt32.ofNat ((base + x) % paws)).toNat = (base + x) % paws) ∧
        (∀ (e : Encoder) x n, e.ceiling = paws → e.next = UInt32.ofNat ((base + x) % paws) →
          e.advance n = .ok { e with next := UInt32.ofNat ((base + (x + n)) % paws) }) ∧
        g.KeepsOrder count fun x => UInt32.ofNat ((base + x) % paws)) ∧
    ∀ (a b n : ℕ) (k : ℤ), Serial.groupDistance a b n = k ↔
      k ≡ (a : ℤ) - b [ZMOD (max n 1 : ℕ)] ∧ -((max n 1 : ℕ) : ℤ) < 2 * k ∧ 2 * k ≤ (max n 1 : ℕ) := by
  refine ⟨?_, fun a b n k => Serial.groupDistance_eq_iff⟩
  intro g hg
  refine ⟨g.ceiling, g.ring, paws_eq_ceiling hg, groupCount_eq_ring hg, ?_⟩
  intro base hbase
  refine ⟨fun x => toNat_seqidAt hg base x, ?_, keepsOrder_seqidAt hg hbase⟩
  intro e x n hceiling hnext
  exact Encoder.advance_eq hg hceiling hnext n

/-- Groups of six start at the last one in front of the ceiling, so the next one is group 0. Half a circle further on
lies another one, as far ahead as a group can be. On a circle without groups nothing is apart. -/
theorem groups_keep_order_at_half_circle :
    Serial.groupDistance 0 715827881 715827882 = 1 ∧ Serial.groupDistance 357913940 715827881 715827882 = 357913941 ∧
      Serial.groupDistance 7 9 0 = 0 := by
  obtain ⟨paws, count, hpaws, hcount, hstream⟩ := groups_keep_order.1 ⟨4, 2⟩ (by decide)
  obtain rfl : 4294967292 = paws := Except.ok.inj hpaws
  obtain rfl : 715827882 = count := Except.ok.inj hcount
  obtain ⟨-, -, horder⟩ := hstream 4294967286 (by decide)
  refine ⟨?_, ?_, ?_⟩
  · exact horder.distance 0 6 715827881 0 1 (by decide) (by decide) (by decide) rfl rfl
  · exact horder.distance 0 2147483646 715827881 357913940 357913941 (by decide) (by decide) (by decide) rfl rfl
  · exact (groups_keep_order.2 7 9 0 0).2 ⟨by decide, by decide, by decide⟩

end Geometry

end PacketFec
