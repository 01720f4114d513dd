import Mathlib
import PacketFec.Proofs.Receiving

/-!
# What a packet adds to the counters

Taking a packet raises counters on some of its ways out only: a parity shard that goes into a set is counted there, and
a set that is drained is counted as complete, as rebuilt or as refused. All other ways out leave the counters alone,
but for the gauges.

* `Counters.Raised`: counters that are raised by some numbers.
* `Decoder.Rebuilds`: what becomes of a drained set, with what it adds to the counters.
* `Decoder.decode_raised`: **what a packet adds to the counters.**
-/

namespace PacketFec

/-- Whether a counter holds what was written last. All others count events. -/
def Counter.IsGauge : Counter → Prop
  | .shardSets => True
  | .shardMin => True
  | _ => False

namespace Counters

variable {c c' c'' : Counters} {n m : Counter → ℕ}

/-- The counters `c'` are the counters `c` raised by `n`, modulo 2^64. Gauges may hold anything. -/
def Raised (c : Counters) (n : Counter → ℕ) (c' : Counters) : Prop :=
  ∀ k : Counter, ¬ k.IsGauge → c'.get k = c.get k + UInt64.ofNat (n k)

theorem raised_refl (c : Counters) : c.Raised 0 c := by
  intro k _
  exact (UInt64.add_zero _).symm

theorem Raised.trans (h : c.Raised n c') (h' : c'.Raised m c'') : c.Raised (n + m) c'' := by
  intro k hk
  rw [h' k hk, h k hk, Pi.add_apply, UInt64.ofNat_add, UInt64.add_assoc]

theorem raised_add (c : Counters) (k : Counter) (n : ℕ) : c.Raised (Pi.single k n) (c.add k (UInt64.ofNat n)) := by
  intro k' _
  by_cases hk : k' = k
  · subst hk
    rw [add, get_set_self, Pi.single_eq_same]
  · rw [add, get_set_of_ne _ hk, Pi.single_eq_of_ne hk]
    exact (UInt64.add_zero _).symm

theorem raised_gauge (c : Counters) (k : Counter) (hk : k.IsGauge) (v : UInt64) : c.Raised 0 (c.set k v) := by
  intro k' hk'
  have hne : k' ≠ k := fun heq => hk' (heq ▸ hk)
  rw [get_set_of_ne _ hne]
  exact (UInt64.add_zero _).symm

/-- Counters that are raised from zero hold what they are raised by, as long as a word holds it. -/
theorem toNat_get_of_raised (h : Counters.zero.Raised n c) {k : Counter} (hk : ¬ k.IsGauge) (hlt : n k < wordLimit) :
    (c.get k).toNat = n k := by
  have hzero : Counters.zero.get k = 0 := by cases k <;> rfl
  rw [h k hk, hzero, UInt64.zero_add]
  exact UInt64.toNat_ofNat_of_lt' hlt

end Counters

namespace Decoder

variable {g : Geometry} {d : Decoder} {shared shared' : Shared} {t : Decoded} {packet : Bytes} {shard : Shard}

/-! ### A drained set -/

/-- How many data shards are missing among the bodies of a group. -/
def lostIn (g : Geometry) (bodies : List (Option Bytes)) : ℕ := (bodies.take g.data).countP Option.isNone

/-- What becomes of a drained set with some bodies, and what it adds to the counters. -/
inductive Rebuilds (g : Geometry) (bodies : List (Option Bytes)) (recovered : List Buffer) (n : Counter → ℕ) : Prop
  /-- No data shard is missing. -/
  | complete (hlost : lostIn g bodies = 0) (hrec : recovered = []) (hn : n = Pi.single .fullShardSets 1)
  /-- The missing data shards are rebuilt. -/
  | restored (hlost : lostIn g bodies ≠ 0) (hrec : recovered.length = lostIn g bodies)
      (hsome : Code.restore g (levelled bodies) ≠ none) (hn : n = Pi.single .recovered recovered.length)
  /-- The code refuses the group. -/
  | refused (hlost : lostIn g bodies ≠ 0) (hrec : recovered = [])
      (hnone : Code.restore g (levelled bodies) = none) (hn : n = Pi.single .errors 1)

theorem reconstruct_rebuilds {slots : List (Option Buffer)} {recovered : List Buffer}
    (h : reconstruct g shared slots = .ok (shared', recovered)) :
    ∃ n, Rebuilds g (bodiesIn slots) recovered n ∧ shared.counters.Raised n shared'.counters := by
  have hlevel := map_bytes_padded slots
  have hlost : ((slots.map (·.map fun b : Buffer => b.hold (b.bytes.drop headerSize))).take g.data).countP
      Option.isNone = lostIn g (bodiesIn slots) := by
    rw [countP_isNone_take, lostIn, bodiesIn, countP_isNone_take]
  unfold reconstruct at h
  split at h
  · cases h
  simp only [hlost] at h hlevel
  rw [hlevel] at h
  split at h
  · rename_i hzero
    cases h
    exact ⟨_, .complete hzero rfl rfl, Counters.raised_add _ _ _⟩
  · rename_i hpos
    split at h
    · rename_i restored hrestore
      cases h
      -- one body is given away for each missing data shard
      have hlen := Code.length_restore hrestore
      have hsome : Code.restore g (levelled (bodiesIn slots)) ≠ none := by
        rw [hrestore]
        exact Option.some_ne_none _
      refine ⟨_, .restored hpos ?_ hsome rfl, Counters.raised_add _ _ _⟩
      rw [List.length_zipWith, List.length_map, BufferPool.length_acquireMany, hlen, levelled, countP_isNone_take,
        ← lostIn, min_self]
    · rename_i hrestore
      cases h
      exact ⟨_, .refused hpos rfl hrestore rfl, Counters.raised_add _ _ _⟩

/-- The bodies that a drained set gives back are counted, and they are no more than the data shards of a group. -/
theorem Rebuilds.recovered_eq {bodies : List (Option Bytes)} {recovered : List Buffer} {n : Counter → ℕ}
    (h : Rebuilds g bodies recovered n) : n .recovered = recovered.length ∧ recovered.length ≤ g.data := by
  cases h with
  | complete hlost hrec hn =>
    subst hn hrec
    simp
  | restored hlost hrec hsome hn =>
    have hle : lostIn g bodies ≤ g.data := List.countP_le_length.trans (List.length_take_le _ _)
    subst hn
    simpa [hrec] using hle
  | refused hlost hrec hnone hn =>
    subst hn hrec
    simp

/-! ### A packet -/

/-- What a shard adds to the counters where it goes into a set. -/
def entering (shard : Shard) : Counter → ℕ := if shard.kind = .parity then Pi.single .parityShards 1 else 0

theorem entering_eq_zero (shard : Shard) {k : Counter} (hk : k ≠ .parityShards) : entering shard k = 0 := by
  unfold entering
  split
  · exact Pi.single_eq_of_ne hk 1
  · rfl

/-- What a shard adds that goes into a set: it is counted itself where it is parity, and the set is counted where it
is full then. -/
def Adds (d : Decoder) (shard : Shard) (recovered : List Buffer) (n : Counter → ℕ) : Prop :=
  (d.setOf shard).members + 1 < d.geometry.data ∧ recovered = [] ∧ n = entering shard ∨
    d.geometry.data ≤ (d.setOf shard).members + 1 ∧
      ∃ m, Rebuilds d.geometry ((bodiesIn (d.setOf shard).slots).set (d.position shard)
        (some (shard.bytes.drop headerSize))) recovered m ∧ n = entering shard + m

/-- What a shard gives back is counted, and is no more than the data shards of a group. -/
theorem Adds.recovered_eq {recovered : List Buffer} {n : Counter → ℕ} (h : d.Adds shard recovered n) :
    n .recovered = recovered.length ∧ recovered.length ≤ d.geometry.data := by
  have hentering := entering_eq_zero shard (k := .recovered) (by decide)
  rcases h with ⟨-, rfl, rfl⟩ | ⟨-, m, hm, rfl⟩
  · simp [hentering]
  · rw [Pi.add_apply, hentering, Nat.zero_add]
    exact hm.recovered_eq

theorem place_raised (h : d.place shared shard (d.groupId shard) (d.position shard) (d.setOf shard) = .ok t) :
    ∃ n, d.Adds shard t.recovered n ∧ shared.counters.Raised n t.shared.counters := by
  have hentering : shared.counters.Raised (entering shard)
      (if shard.kind = .parity then shared.count .parityShards 1 else shared).counters := by
    unfold entering
    split
    · exact Counters.raised_add _ _ _
    · exact Counters.raised_refl _
  unfold place at h
  -- from here on it does not matter whether the shard has been counted
  generalize (if shard.kind = .parity then shared.count .parityShards 1 else shared) = counted at h hentering
  simp only at h
  split at h
  · rename_i hfull
    obtain ⟨⟨shared', recovered⟩, hrebuild, h⟩ := Checked.bind_eq_ok.1 h
    cases h
    obtain ⟨m, hm, hraised⟩ := reconstruct_rebuilds hrebuild
    rw [bodiesIn, ShardSet.insert, List.map_set] at hm
    exact ⟨_, .inr ⟨hfull, m, hm, rfl⟩, hentering.trans hraised⟩
  · rename_i hopen
    cases h
    exact ⟨_, .inl ⟨Nat.not_le.1 hopen, rfl, rfl⟩, hentering⟩

theorem raiseFloor_raised (d : Decoder) (shared : Shared) (group groups : ℕ) :
    shared.counters.Raised 0 (d.raiseFloor shared group groups).2.counters := by
  unfold raiseFloor
  simp only
  split_ifs
  · exact Counters.raised_gauge _ .shardMin trivial _
  · exact Counters.raised_refl _

theorem evict_raised (d : Decoder) (shared : Shared) (groups : ℕ) :
    shared.counters.Raised 0 (d.evict shared groups).2.counters := by
  unfold evict
  split
  · exact Counters.raised_gauge _ .shardSets trivial _
  · exact Counters.raised_gauge _ .shardSets trivial _

/-- A shard that goes into a set adds what its place adds; moving the floor and evicting sets adds nothing. -/
theorem receive_raised (hg : d.geometry.Valid) {b : Buffer} (hs : d.Settles shared shard b t)
    (hnew : d.behind (d.groupId shard) d.geometry.ring = false) (h : d.receive shared shard = .ok t) :
    ∃ n, d.Adds shard t.recovered n ∧ shared.counters.Raised n t.shared.counters := by
  rw [receive_eq hg, hnew, absorbs_of_settles hs] at h
  simp only [Checked.ok_bind, Bool.false_eq_true, if_false] at h
  obtain ⟨taken, hplace, h⟩ := Checked.bind_eq_ok.1 h
  cases h
  obtain ⟨n, hn, hraised⟩ := place_raised hplace
  refine ⟨n, hn, ?_⟩
  have hfloor := hraised.trans (raiseFloor_raised taken.decoder taken.shared (d.groupId shard) d.geometry.ring)
  have hevict := hfloor.trans (evict_raised (taken.decoder.raiseFloor taken.shared (d.groupId shard) d.geometry.ring).1
    _ d.geometry.ring)
  rwa [add_zero, add_zero] at hevict

theorem retune_raised (h : d.retune shared = .ok t) : shared.counters.Raised 0 t.shared.counters := by
  unfold retune at h
  split at h
  · cases h
    exact Counters.raised_refl _
  split at h
  · cases h
    exact Counters.raised_refl _
  split at h
  · obtain ⟨retunes, -, h⟩ := Checked.bind_eq_ok.1 h
    cases h
    exact (Counters.raised_gauge _ .shardSets trivial _).trans (Counters.raised_gauge _ .shardMin trivial _)
  · cases h
    exact Counters.raised_refl _

/-- **What a packet adds to the counters.** A packet that goes into no set adds nothing, and leaves the sets as they
were or without any. -/
theorem decode_raised (hd : d.Sound) (h : d.decode shared packet = .ok t) :
    t.recovered = [] ∧ (t.decoder.sets = d.sets ∨ t.decoder.sets = []) ∧
        shared.counters.Raised 0 t.shared.counters ∨
      ∃ shard b n, Shard.parse packet = .ok shard ∧ d.InPlace shard ∧
        d.behind (d.groupId shard) d.geometry.ring = false ∧ (d.noted shard).Settles shared shard b t ∧
        d.Adds shard t.recovered n ∧ shared.counters.Raised n t.shared.counters := by
  cases hparse : Shard.parse packet with
  | error e =>
    rw [decode_of_parse_error hparse] at h
    cases h
    exact .inl ⟨rfl, .inl rfl, Counters.raised_refl _⟩
  | ok shard =>
    obtain ⟨-, hbytes, hlong⟩ := parse_eq_ok hparse
    rw [decode_eq hd.valid hparse] at h
    split at h
    · rename_i hplace
      rcases receive_cases (hd.noted shard) shared (by rwa [hbytes]) with ⟨hrec, -⟩ | ⟨hnew, b, t', hrec, hs⟩
      · rw [hrec] at h
        cases h
        exact .inl ⟨rfl, .inl rfl, Counters.raised_refl _⟩
      · obtain ⟨n, hn, hraised⟩ := receive_raised (d := d.noted shard) hd.valid hs hnew hrec
        rw [hrec] at h
        cases h
        exact .inr ⟨shard, b, n, rfl, hplace, hnew, hs, hn, hraised⟩
    · have hraised := retune_raised h
      obtain ⟨hrec, ⟨hdec, -⟩ | ⟨g, -, -, hdec⟩⟩ := retune_takes h
      · exact .inl ⟨hrec, .inl (by rw [hdec]; rfl), hraised⟩
      · exact .inl ⟨hrec, .inr (by rw [hdec]; rfl), hraised⟩

end Decoder

end PacketFec
