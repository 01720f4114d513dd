import Mathlib
import PacketFec.Geometry
import PacketFec.Serial

/-!
# How a stream is numbered

The shards of a stream have positions `0, 1, 2, …` without end. Sequence ids start at a multiple `base` of
the group size and wrap at a ceiling that is a multiple of it too, so a position and its sequence id stand
at the same place of a group, and groups that are not too far apart keep their order on the circle.

* `Geometry.seqidAt`: the sequence id of a position.
* `Geometry.seqidAt_mod`, `Geometry.seqidAt_div`: its place in the group, and the group.
* `Serial.groupDistance_eq`, `Serial.groupDistance_spec`: the distance on a circle is the residue of least size.
* `Serial.groupDistance_add`, `Serial.groupDistance_add_of_lt`: how distances add up.
* `Geometry.groupDistance_ring`: **the distance between two groups of a stream is that of their indices**.
-/

namespace PacketFec

namespace Serial

/-- The distance on a circle is the number around zero that is congruent to the difference. -/
theorem groupDistance_eq {a b n : ℕ} {k : ℤ} (hn : 0 < n) (hcong : (n : ℤ) ∣ (a : ℤ) - b - k)
    (hlo : -(n : ℤ) < 2 * k) (hhi : 2 * k ≤ n) : groupDistance a b n = k := by
  have hmod : ((a : ℤ) - b) % n = k % n := (Int.modEq_iff_dvd.2 hcong).symm
  have hmax : max (n : ℤ) 1 = n := max_eq_left (by omega)
  unfold groupDistance
  simp only [hmax, hmod]
  rcases lt_or_ge k 0 with hk | hk
  · have hemod : k % n = k + n := by
      rw [← Int.add_emod_right, Int.emod_eq_of_lt (by omega) (by omega)]
    rw [hemod, if_pos (by omega)]
    omega
  · rw [Int.emod_eq_of_lt hk (by omega), if_neg (by omega)]

variable {a b c n : ℕ}

/-- The distance is congruent to the difference, and of least size. -/
theorem groupDistance_spec (hn : 0 < n) (a b : ℕ) :
    (n : ℤ) ∣ (a : ℤ) - b - groupDistance a b n ∧ -(n : ℤ) < 2 * groupDistance a b n ∧
      2 * groupDistance a b n ≤ n := by
  have hmax : max (n : ℤ) 1 = n := max_eq_left (by omega)
  have hlo := Int.emod_nonneg ((a : ℤ) - b) (b := n) (by omega)
  have hhi := Int.emod_lt_of_pos ((a : ℤ) - b) (b := n) (by omega)
  have hdvd : (n : ℤ) ∣ (a : ℤ) - b - ((a : ℤ) - b) % n := Int.dvd_self_sub_emod
  unfold groupDistance
  simp only [hmax]
  split
  · have hshift : (a : ℤ) - b - (((a : ℤ) - b) % n - n) = (a : ℤ) - b - ((a : ℤ) - b) % n + n := by ring
    refine ⟨?_, by omega, by omega⟩
    rw [hshift]
    exact dvd_add_self_right.2 hdvd
  · exact ⟨hdvd, by omega, by omega⟩

/-- Going back by its distance leads to the place of a group. -/
theorem emod_groupDistance (hn : 0 < n) (a b : ℕ) : ((a : ℤ) - groupDistance a b n) % n = b % n := by
  obtain ⟨hdvd, -, -⟩ := groupDistance_spec hn a b
  rw [sub_right_comm] at hdvd
  exact (Int.modEq_iff_dvd.2 hdvd).symm

/-- The distance depends on the difference alone, around the circle. -/
theorem groupDistance_congr {a' b' : ℕ} (hn : 0 < n) (h : (n : ℤ) ∣ ((a' : ℤ) - b') - ((a : ℤ) - b)) :
    groupDistance a' b' n = groupDistance a b n := by
  obtain ⟨hdvd, hlo, hhi⟩ := groupDistance_spec hn a b
  have hsum : (a' : ℤ) - b' - groupDistance a b n =
      ((a' : ℤ) - b') - ((a : ℤ) - b) + ((a : ℤ) - b - groupDistance a b n) := by ring
  apply groupDistance_eq hn _ hlo hhi
  rw [hsum]
  exact dvd_add h hdvd

theorem groupDistance_eq_zero (hn : 0 < n) (h : (n : ℤ) ∣ (a : ℤ) - b) : groupDistance a b n = 0 :=
  groupDistance_eq hn (by rwa [sub_zero]) (by omega) (by omega)

theorem dvd_groupDistance_add (hn : 0 < n) (a b c : ℕ) :
    (n : ℤ) ∣ (a : ℤ) - c - (groupDistance a b n + groupDistance b c n) := by
  have hsum : (a : ℤ) - c - (groupDistance a b n + groupDistance b c n) =
      (a : ℤ) - b - groupDistance a b n + ((b : ℤ) - c - groupDistance b c n) := by ring
  rw [hsum]
  exact dvd_add (groupDistance_spec hn a b).1 (groupDistance_spec hn b c).1

/-- Distances add up where their sum is not beyond half of the circle. -/
theorem groupDistance_add (hn : 0 < n) (hlo : -(n : ℤ) < 2 * (groupDistance a b n + groupDistance b c n))
    (hhi : 2 * (groupDistance a b n + groupDistance b c n) ≤ n) :
    groupDistance a c n = groupDistance a b n + groupDistance b c n :=
  groupDistance_eq hn (dvd_groupDistance_add hn a b c) hlo hhi

/-- Beyond half of the circle, what lay behind comes out ahead. -/
theorem groupDistance_add_of_lt (hn : 0 < n) (h : (n : ℤ) < 2 * (groupDistance a b n + groupDistance b c n)) :
    groupDistance a c n = groupDistance a b n + groupDistance b c n - n := by
  obtain ⟨-, -, h1⟩ := groupDistance_spec hn a b
  obtain ⟨-, -, h2⟩ := groupDistance_spec hn b c
  have hshift : (a : ℤ) - c - (groupDistance a b n + groupDistance b c n - n) =
      (a : ℤ) - c - (groupDistance a b n + groupDistance b c n) + n := by ring
  apply groupDistance_eq hn _ (by omega) (by omega)
  rw [hshift]
  exact dvd_add_self_right.2 (dvd_groupDistance_add hn a b c)

end Serial

namespace Geometry

variable {g : Geometry}

/-- Groups in the sequence space. -/
def ring (g : Geometry) : ℕ := (seqidLimit - 1) / g.total

/-- Where sequence ids wrap. -/
def ceiling (g : Geometry) : ℕ := g.ring * g.total

/-- The sequence id of a position in a stream that starts at `base`. -/
def seqidAt (g : Geometry) (base x : ℕ) : UInt32 := UInt32.ofNat ((base + x) % g.ceiling)

theorem groupCount_eq_ring (hg : g.Valid) : g.groupCount = .ok g.ring := groupCount_eq hg

theorem paws_eq_ceiling (hg : g.Valid) : g.paws = .ok g.ceiling := paws_eq hg

theorem ring_pos (hg : g.Valid) : 0 < g.ring :=
  Nat.div_pos (le_trans (total_le_256 hg) (by decide)) (total_pos hg)

/-- There are millions of groups, whatever their size. -/
theorem le_ring (hg : g.Valid) : 16777215 ≤ g.ring := by
  have h256 : (seqidLimit - 1) / 256 = 16777215 := rfl
  rw [← h256]
  exact Nat.div_le_div_left (total_le_256 hg) (total_pos hg)

theorem ceiling_pos (hg : g.Valid) : 0 < g.ceiling := Nat.mul_pos (ring_pos hg) (total_pos hg)

theorem ceiling_lt (g : Geometry) : g.ceiling < seqidLimit :=
  lt_of_le_of_lt (Nat.div_mul_le_self _ _) (by decide)

theorem total_dvd_ceiling (g : Geometry) : g.total ∣ g.ceiling := Dvd.intro_left _ rfl

theorem toNat_ofNat_mod_ceiling (hg : g.Valid) (x : ℕ) :
    (UInt32.ofNat (x % g.ceiling)).toNat = x % g.ceiling := by
  have hlt := Nat.mod_lt x (ceiling_pos hg)
  have hc := ceiling_lt g
  rw [seqidLimit] at hc
  exact UInt32.toNat_ofNat_of_lt' (by rw [UInt32.size]; omega)

theorem toNat_seqidAt (hg : g.Valid) (base x : ℕ) : (g.seqidAt base x).toNat = (base + x) % g.ceiling :=
  toNat_ofNat_mod_ceiling hg _

/-! ### Places of a stream -/

variable {base : ℕ}

/-- A position and its sequence id stand at the same place of a group. -/
theorem seqidAt_mod (hg : g.Valid) (hbase : g.total ∣ base) (x : ℕ) :
    (g.seqidAt base x).toNat % g.total = x % g.total := by
  rw [toNat_seqidAt hg, Nat.mod_mod_of_dvd _ (total_dvd_ceiling g), Nat.add_mod,
    Nat.mod_eq_zero_of_dvd hbase, Nat.zero_add, Nat.mod_mod]

theorem seqidAt_div (hg : g.Valid) (hbase : g.total ∣ base) (x : ℕ) :
    (g.seqidAt base x).toNat / g.total = (base / g.total + x / g.total) % g.ring := by
  rw [toNat_seqidAt hg, ceiling, Nat.mod_mul_left_div_self, Nat.add_div_of_dvd_right hbase]

theorem kindAt_seqidAt (hg : g.Valid) (hbase : g.total ∣ base) (x : ℕ) :
    g.kindAt (g.seqidAt base x) = .ok (if x % g.total < g.data then .data else .parity) := by
  rw [kindAt_eq hg, seqidAt_mod hg hbase]

/-- The position in a stream of place `p` in its group `k`. -/
def place (g : Geometry) (k p : ℕ) : ℕ := k * g.total + p

theorem place_mod {p : ℕ} (hp : p < g.total) (k : ℕ) : g.place k p % g.total = p := by
  rw [place, Nat.mul_add_mod_self_right, Nat.mod_eq_of_lt hp]

theorem place_div {p : ℕ} (hp : p < g.total) (k : ℕ) : g.place k p / g.total = k := by
  rw [place, Nat.mul_comm, Nat.mul_add_div (Nat.zero_lt_of_lt hp), Nat.div_eq_of_lt hp, Nat.add_zero]

theorem place_add (k p n : ℕ) : g.place k p + n = g.place k (p + n) := Nat.add_assoc _ _ _

theorem place_total (k : ℕ) : g.place k g.total = g.place (k + 1) 0 := by
  rw [place, place, Nat.succ_mul, Nat.add_zero]

/-- The position of the next packet of a sender that has sealed `n` packets. -/
def packetPlace (g : Geometry) (n : ℕ) : ℕ := g.place (n / g.data) (n % g.data)

@[simp] theorem packetPlace_zero (g : Geometry) : g.packetPlace 0 = 0 := by simp [packetPlace, place]

theorem mod_div_succ_of_lt {n d : ℕ} (h : n % d + 1 < d) : (n + 1) % d = n % d + 1 ∧ (n + 1) / d = n / d := by
  have hn : n + 1 = d * (n / d) + (n % d + 1) := by
    rw [← Nat.add_assoc, Nat.div_add_mod]
  refine ⟨?_, ?_⟩
  · rw [hn, Nat.mul_add_mod, Nat.mod_eq_of_lt h]
  · rw [hn, Nat.mul_add_div (Nat.zero_lt_of_lt h), Nat.div_eq_of_lt h, Nat.add_zero]

theorem mod_div_succ_of_eq {n d : ℕ} (h : n % d + 1 = d) : (n + 1) % d = 0 ∧ (n + 1) / d = n / d + 1 := by
  have hn : n + 1 = d * (n / d + 1) := by
    have := Nat.div_add_mod n d
    rw [Nat.mul_add, Nat.mul_one]
    omega
  have hpos : 0 < d := by omega
  exact ⟨by rw [hn, Nat.mul_mod_right], by rw [hn, Nat.mul_div_cancel_left _ hpos]⟩

/-- Inside a group packets follow one another. -/
theorem packetPlace_succ_of_lt {n : ℕ} (h : n % g.data + 1 < g.data) :
    (n + 1) % g.data = n % g.data + 1 ∧ g.packetPlace (n + 1) = g.packetPlace n + 1 := by
  obtain ⟨hmod, hdiv⟩ := mod_div_succ_of_lt h
  exact ⟨hmod, by rw [packetPlace, packetPlace, hmod, hdiv, place_add]⟩

/-- Behind the last packet of a group the parity of the group has its places. -/
theorem packetPlace_succ_of_eq {n : ℕ} (h : n % g.data + 1 = g.data) :
    (n + 1) % g.data = 0 ∧ g.packetPlace (n + 1) = g.packetPlace n + 1 + g.parity := by
  obtain ⟨hmod, hdiv⟩ := mod_div_succ_of_eq h
  refine ⟨hmod, ?_⟩
  rw [packetPlace, packetPlace, hmod, hdiv, place_add, place_add, h, ← place_total]
  rfl

/-! ### Order of groups -/

/-- **The distance between two groups of a stream is that of their indices**, as long as these are no more than
half a circle apart. -/
theorem groupDistance_ring (hg : g.Valid) (b i j : ℕ) (hlo : -(g.ring : ℤ) < 2 * ((j : ℤ) - i))
    (hhi : 2 * ((j : ℤ) - i) ≤ g.ring) :
    Serial.groupDistance ((b + j) % g.ring) ((b + i) % g.ring) g.ring = (j : ℤ) - i := by
  apply Serial.groupDistance_eq (ring_pos hg) _ hlo hhi
  have h1 := Int.emod_add_mul_ediv ((b : ℤ) + j) g.ring
  have h2 := Int.emod_add_mul_ediv ((b : ℤ) + i) g.ring
  push_cast
  exact ⟨((b : ℤ) + i) / g.ring - ((b : ℤ) + j) / g.ring, by linarith⟩

end Geometry

end PacketFec
