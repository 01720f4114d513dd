import Mathlib
import PacketFec.Decoder
import PacketFec.Proofs.GroupShards
import PacketFec.Proofs.Periods
import PacketFec.Proofs.ShardSets

/-!
# What a receiver does with one shard

A shard that stands at its place is dropped, or it is settled: it goes into the set of its group, the set is
drained and rebuilt if that fills it up, the floor rises to the newest group, and the sets that lag behind it
go. `Decoder.Sound` is what makes all this free of faults, and it is kept.

* `Decoder.Sound`: the geometry is valid, and every set is a set of its groups.
* `Decoder.reconstruct_eq`: what is rebuilt from the slots of a group.
* `Decoder.receive_cases`: **what a receiver does with a shard at its place.**
* `Decoder.valid_of_detected`, `Decoder.retune_cases`: what it does with any other shard. A geometry that the
  pulse log names is valid.
* `Decoder.Takes`, `Decoder.decode_takes`: **what taking a packet can do**, whatever its bytes are.
-/

namespace PacketFec.Decoder

variable {g : Geometry} {d : Decoder} {shared : Shared}

/-- A receiver whose sets fit its geometry. -/
structure Sound (d : Decoder) : Prop where
  valid : d.geometry.Valid
  sets : ∀ entry ∈ d.sets, entry.2.Sound d.geometry

theorem errors_count {k : Counter} (hk : k ≠ .errors) (shared : Shared) (n : UInt64) :
    (shared.count k n).counters.errors = shared.counters.errors :=
  Counters.get_set_of_ne shared.counters (Ne.symm hk) _

theorem errors_gauge {k : Counter} (hk : k ≠ .errors) (shared : Shared) (n : ℕ) :
    (shared.gauge k n).counters.errors = shared.counters.errors :=
  Counters.get_set_of_ne shared.counters (Ne.symm hk) _

/-- A new receiver tracks nothing and has noted nothing. -/
theorem create_eq_ok_iff : create g = .ok d ↔ g.Valid ∧ d = ⟨g, [], none, .empty, 0⟩ := by
  unfold create
  rw [Checked.bind_eq_ok]
  constructor
  · rintro ⟨_, hvalid, h⟩
    cases h
    exact ⟨Geometry.validate_eq_ok_iff.1 hvalid, rfl⟩
  · rintro ⟨hg, rfl⟩
    exact ⟨(), Geometry.validate_eq_ok_iff.2 hg, rfl⟩

/-! ### Rebuilding a group -/

/-- The bodies in the slots of a group. -/
def bodiesIn (slots : List (Option Buffer)) : List (Option Bytes) :=
  slots.map (·.map (·.bytes.drop headerSize))

/-- What the code gives back of a group. -/
def rebuilt (g : Geometry) (slots : List (Option Buffer)) : List Bytes :=
  (Code.restore g (levelled (bodiesIn slots))).getD []

theorem countP_isNone_map {α β : Type} (f : α → β) (slots : List (Option α)) :
    (slots.map (·.map f)).countP Option.isNone = slots.countP Option.isNone := by
  rw [List.countP_map]
  congr 1
  funext o
  cases o <;> rfl

theorem countP_isNone_take {α β : Type} (f : α → β) (n : ℕ) (slots : List (Option α)) :
    ((slots.map (·.map f)).take n).countP Option.isNone = (slots.take n).countP Option.isNone := by
  rw [← List.map_take, countP_isNone_map]

/-- The buffers that hold some bodies have them as bytes. -/
theorem map_bytes_zipWith {blanks : List Buffer} {bodies : List Bytes} (h : bodies.length = blanks.length) :
    (List.zipWith Buffer.hold blanks bodies).map (·.bytes) = bodies := by
  induction bodies generalizing blanks with
  | nil => simp
  | cons b rest ih =>
    cases blanks with
    | nil => simp at h
    | cons c blanks =>
      rw [List.zipWith_cons_cons, List.map_cons, ih (by simpa using h)]
      rfl

/-- The code sees the bodies in the slots, filled up to the longest one. -/
theorem map_bytes_padded (slots : List (Option Buffer)) :
    let bodies := slots.map (·.map fun b => b.hold (b.bytes.drop headerSize))
    let w := ((bodies.filterMap id).map (·.bytes.length)).foldl max 0
    (bodies.map (·.map (·.resize w 0))).map (·.map (·.bytes)) = levelled (bodiesIn slots) := by
  intro bodies w
  have hbytes : bodies.map (·.map (·.bytes)) = bodiesIn slots := by
    rw [List.map_map, bodiesIn]
    apply List.map_congr_left
    intro o _
    cases o <;> rfl
  have hwidth : w = width ((bodiesIn slots).filterMap id) := by
    rw [← hbytes, filterMap_map_map, width, List.map_map]
    rfl
  rw [levelled, ← hwidth, ← hbytes]
  simp only [List.map_map]
  apply List.map_congr_left
  intro o _
  cases o <;> rfl

/-- **A drained group is rebuilt without a fault.** A failure is counted only where the code refuses the
group, and then nothing is rebuilt. -/
theorem reconstruct_eq (g : Geometry) {slots : List (Option Buffer)}
    (hhead : ∀ b ∈ slots.filterMap id, headerSize ≤ b.bytes.length) (shared : Shared) :
    ∃ shared' recovered, reconstruct g shared slots = .ok (shared', recovered) ∧
      recovered.map (·.bytes) = rebuilt g slots ∧
      (shared'.counters.errors ≠ shared.counters.errors →
        Code.restore g (levelled (bodiesIn slots)) = none) := by
  set bodies := slots.map (·.map fun b => b.hold (b.bytes.drop headerSize)) with hbodies
  set w := ((bodies.filterMap id).map (·.bytes.length)).foldl max 0 with hw
  set padded := bodies.map (·.map (·.resize w 0)) with hpadded
  have hlevel : padded.map (·.map (·.bytes)) = levelled (bodiesIn slots) := map_bytes_padded slots
  have hlost : ((levelled (bodiesIn slots)).take g.data).countP Option.isNone =
      (bodies.take g.data).countP Option.isNone := by
    rw [← hlevel, countP_isNone_take, hpadded, countP_isNone_take]
  unfold reconstruct
  rw [if_neg (by push Not; exact hhead)]
  simp only [← hbodies, ← hw, ← hpadded, hlevel]
  split
  · rename_i hzero
    refine ⟨_, [], rfl, ?_, fun h => absurd (errors_count (by decide) _ _) h⟩
    cases hr : Code.restore g (levelled (bodiesIn slots)) with
    | none => rw [rebuilt, hr]; rfl
    | some restored =>
      have hlen := Code.length_restore hr
      rw [hlost, hzero] at hlen
      rw [rebuilt, hr, Option.getD_some, List.eq_nil_of_length_eq_zero hlen]
      rfl
  · cases hr : Code.restore g (levelled (bodiesIn slots)) with
    | none =>
      exact ⟨_, [], rfl, by rw [rebuilt, hr]; rfl, fun _ => rfl⟩
    | some restored =>
      refine ⟨_, _, rfl, ?_, fun h => absurd (errors_count (by decide) _ _) h⟩
      rw [rebuilt, hr, Option.getD_some]
      apply map_bytes_zipWith
      rw [List.length_map, BufferPool.length_acquireMany, Code.length_restore hr, hlost]

/-! ### Floor and eviction -/

/-- The newest group behind a shard of a group. -/
def newest (d : Decoder) (group : ℕ) : ℕ :=
  match d.floor with
  | none => group
  | some floor => if Serial.groupDistance group floor d.geometry.ring > 0 then group else floor

/-- The receiver behind a shard of a group, whose set is now `set`. -/
def settled (d : Decoder) (group : ℕ) (set : ShardSet) : Decoder :=
  { d with
    floor := some (d.newest group)
    sets := (d.sets.put group set).filter fun entry => !lags (d.newest group) d.geometry.ring entry.1 }

theorem raiseFloor_eq (d : Decoder) (shared : Shared) (group : ℕ) :
    ∃ shared', d.raiseFloor shared group d.geometry.ring = ({ d with floor := some (d.newest group) }, shared') ∧
      shared'.counters.errors = shared.counters.errors := by
  unfold raiseFloor newest
  cases hf : d.floor with
  | none => exact ⟨_, rfl, errors_gauge (by decide) _ _⟩
  | some floor =>
    by_cases hn : Serial.groupDistance group floor d.geometry.ring > 0
    · simp only [hn, decide_true, if_true]
      exact ⟨_, rfl, errors_gauge (by decide) _ _⟩
    · simp only [hn, decide_false, if_false, Bool.false_eq_true]
      exact ⟨shared, by rw [← hf], rfl⟩

theorem evict_eq (d : Decoder) (shared : Shared) (groups : ℕ) {floor : ℕ} (hf : d.floor = some floor) :
    ∃ shared', d.evict shared groups =
        ({ d with sets := d.sets.filter fun entry => !lags floor groups entry.1 }, shared') ∧
      shared'.counters.errors = shared.counters.errors := by
  unfold evict
  rw [hf]
  exact ⟨_, rfl, errors_gauge (by decide) _ _⟩

/-- Raising the floor and evicting what lags behind it settles a shard. -/
theorem settle_eq (d : Decoder) (shared : Shared) (group : ℕ) (set : ShardSet) :
    ∃ shared', (let raised := raiseFloor { d with sets := d.sets.put group set } shared group d.geometry.ring
        raised.1.evict raised.2 d.geometry.ring) = (d.settled group set, shared') ∧
      shared'.counters.errors = shared.counters.errors := by
  obtain ⟨shared₁, hraise, he₁⟩ := raiseFloor_eq { d with sets := d.sets.put group set } shared group
  obtain ⟨shared₂, hevict, he₂⟩ := evict_eq
    { d with sets := d.sets.put group set, floor := some (d.newest group) } shared₁ d.geometry.ring rfl
  refine ⟨shared₂, ?_, he₂.trans he₁⟩
  rw [show raiseFloor _ shared group d.geometry.ring = _ from hraise]
  exact hevict

theorem Sound.settled (h : d.Sound) (group : ℕ) {set : ShardSet} (hset : set.Sound d.geometry) :
    (d.settled group set).Sound where
  valid := h.valid
  sets := by
    intro entry hentry
    rcases SetTable.mem_put (List.mem_of_mem_filter hentry) with rfl | hold
    · exact hset
    · exact h.sets entry hold

/-! ### A shard at its place -/

/-- The group that a receiver sorts a shard into. -/
def groupId (d : Decoder) (shard : Shard) : ℕ := shard.seqid.toNat / d.geometry.total

/-- The place in the group that a receiver puts a shard at. -/
def position (d : Decoder) (shard : Shard) : ℕ := shard.seqid.toNat % d.geometry.total

/-- The set that a shard belongs to, a new one where its group is not tracked. -/
def setOf (d : Decoder) (shard : Shard) : ShardSet :=
  (d.sets.get? (d.groupId shard)).getD (.empty d.geometry.total)

theorem sound_setOf (h : d.Sound) (shard : Shard) : (d.setOf shard).Sound d.geometry := by
  unfold setOf
  cases hset : d.sets.get? (d.groupId shard) with
  | none => exact ShardSet.sound_empty _
  | some set => exact h.sets _ (SetTable.mem_of_get? hset)

/-- A set with a shard more, drained where that fills it up. -/
def filled (d : Decoder) (shard : Shard) (b : Buffer) : ShardSet :=
  let set := (d.setOf shard).insert (d.position shard) b
  if d.geometry.data ≤ set.members then set.drain else set

/-- What settling a shard gives. Its bytes are in a buffer `b`. -/
structure Settles (d : Decoder) (shared : Shared) (shard : Shard) (b : Buffer) (t : Decoded) : Prop where
  undrained : (d.setOf shard).drained = false
  vacant : (d.setOf shard).slots[d.position shard]? = some none
  bytes_eq : b.bytes = shard.bytes
  decoder_eq : t.decoder = d.settled (d.groupId shard) (d.filled shard b)
  recovered_eq : t.recovered.map (·.bytes) =
    if d.geometry.data ≤ (d.setOf shard).members + 1
    then rebuilt d.geometry ((d.setOf shard).insert (d.position shard) b).slots else []
  refused : t.shared.counters.errors ≠ shared.counters.errors →
    d.geometry.data ≤ (d.setOf shard).members + 1 ∧
      Code.restore d.geometry (levelled (bodiesIn ((d.setOf shard).insert (d.position shard) b).slots)) = none

/-- A shard that is settled is not absorbed. -/
theorem absorbs_of_settles {shard : Shard} {b : Buffer} {t : Decoded}
    (h : d.Settles shared shard b t) :
    (d.setOf shard).absorbs (d.position shard) = .ok false := by
  unfold ShardSet.absorbs
  rw [h.undrained, h.vacant]
  rfl

theorem sound_filled (h : d.Sound) {shard : Shard} {b : Buffer}
    (hv : (d.setOf shard).slots[d.position shard]? = some none) (hb : headerSize ≤ b.bytes.length) :
    (d.filled shard b).Sound d.geometry := by
  have hins := ShardSet.sound_insert (sound_setOf h shard) hv hb
  unfold filled
  simp only
  split
  · exact ShardSet.sound_drain hins
  · exact hins

theorem errors_parity (shared : Shared) (shard : Shard) :
    (if shard.kind = .parity then shared.count .parityShards 1 else shared).counters.errors =
      shared.counters.errors := by
  split
  · exact errors_count (by decide) _ _
  · rfl

/-- Putting a shard into its slot. -/
theorem place_eq (h : d.Sound) (shared : Shared) {shard : Shard} (hb : headerSize ≤ shard.bytes.length)
    (hv : (d.setOf shard).slots[d.position shard]? = some none) :
    ∃ b shared' recovered, b.bytes = shard.bytes ∧
      d.place shared shard (d.groupId shard) (d.position shard) (d.setOf shard) =
        .ok ⟨{ d with sets := d.sets.put (d.groupId shard) (d.filled shard b) }, shared', recovered⟩ ∧
      recovered.map (·.bytes) =
        (if d.geometry.data ≤ (d.setOf shard).members + 1
        then rebuilt d.geometry ((d.setOf shard).insert (d.position shard) b).slots else []) ∧
      (shared'.counters.errors ≠ shared.counters.errors →
        d.geometry.data ≤ (d.setOf shard).members + 1 ∧
          Code.restore d.geometry (levelled (bodiesIn ((d.setOf shard).insert (d.position shard) b).slots)) =
            none) := by
  set counted := if shard.kind = .parity then shared.count .parityShards 1 else shared with hcounted
  set b := (counted.pool.acquire.1.hold []).hold shard.bytes with hbdef
  have hbytes : b.bytes = shard.bytes := rfl
  have hins := ShardSet.sound_insert (sound_setOf h shard) hv (b := b) hb
  set set := (d.setOf shard).insert (d.position shard) b with hset
  have hmembers : set.members = (d.setOf shard).members + 1 := rfl
  by_cases hfull : d.geometry.data ≤ set.members
  · obtain ⟨shared', recovered, h1, h2, h3⟩ := reconstruct_eq d.geometry hins.headed
      { counted with pool := counted.pool.acquire.2 }
    refine ⟨b, shared', recovered, hbytes, ?_, ?_, fun hne => ⟨hfull, h3 ?_⟩⟩
    · unfold place filled
      simp only [← hcounted, ← hbdef, ← hset]
      rw [if_pos hfull, if_pos hfull, h1]
      rfl
    · rw [h2, if_pos (hmembers ▸ hfull)]
    · exact fun heq => hne (heq.trans (errors_parity shared shard))
  · refine ⟨b, { counted with pool := counted.pool.acquire.2 }, [], hbytes, ?_, ?_, fun hne => ?_⟩
    · unfold place filled
      simp only [← hcounted, ← hbdef, ← hset]
      rw [if_neg hfull, if_neg hfull]
      rfl
    · rw [if_neg (hmembers ▸ hfull)]
      rfl
    · exact absurd (errors_parity shared shard) hne

/-- What a receiver of a valid geometry does with a shard at its place. -/
theorem receive_eq (hg : d.geometry.Valid) (shared : Shared) (shard : Shard) :
    d.receive shared shard =
      if d.behind (d.groupId shard) d.geometry.ring then .ok ⟨d, shared, []⟩
      else do
        if ← (d.setOf shard).absorbs (d.position shard) then return ⟨d, shared, []⟩
        let taken ← d.place shared shard (d.groupId shard) (d.position shard) (d.setOf shard)
        let raised := taken.decoder.raiseFloor taken.shared (d.groupId shard) d.geometry.ring
        let evicted := raised.1.evict raised.2 d.geometry.ring
        return ⟨evicted.1, evicted.2, taken.recovered⟩ := by
  unfold receive
  rw [Geometry.groupCount_eq_ring hg, Geometry.groupOf_eq hg, Geometry.size_eq hg]
  simp only [Checked.ok_bind, Checked.mod_eq (Geometry.total_pos hg)]
  rfl

/-- **A shard at its place is dropped or settled.** It is dropped where its group is behind the floor, or
where its set absorbs it. -/
theorem receive_cases (h : d.Sound) (shared : Shared) {shard : Shard} (hb : headerSize ≤ shard.bytes.length) :
    d.receive shared shard = .ok ⟨d, shared, []⟩ ∧ (d.behind (d.groupId shard) d.geometry.ring = true ∨
      (d.setOf shard).absorbs (d.position shard) = .ok true) ∨
    d.behind (d.groupId shard) d.geometry.ring = false ∧
      ∃ b t, d.receive shared shard = .ok t ∧ d.Settles shared shard b t := by
  rw [receive_eq h.valid]
  cases hbehind : d.behind (d.groupId shard) d.geometry.ring with
  | true => exact .inl ⟨rfl, .inl rfl⟩
  | false =>
    -- the set has a slot for the place of every shard
    have hlt : d.position shard < d.geometry.total := Nat.mod_lt _ (Geometry.total_pos h.valid)
    rcases ShardSet.absorbs_cases (sound_setOf h shard).length_eq hlt with habs | ⟨habs, hdrained, hv⟩
    · rw [habs]
      exact .inl ⟨rfl, .inr rfl⟩
    · obtain ⟨b, shared', recovered, hbytes, hplace, hrec, href⟩ := place_eq h shared hb hv
      obtain ⟨shared'', hsettle, herrors⟩ := settle_eq d shared' (d.groupId shard) (d.filled shard b)
      refine .inr ⟨rfl, b, ⟨d.settled (d.groupId shard) (d.filled shard b), shared'', recovered⟩, ?_, hdrained,
        hv, hbytes, rfl, hrec, fun hne => href fun heq => hne (herrors.trans heq)⟩
      rw [habs, hplace]
      simp only [Checked.ok_bind, Bool.false_eq_true, if_false]
      simp only at hsettle
      rw [hsettle]
      rfl

/-! ### A shard that does not stand at its place -/

/-- **A geometry that the pulse log names is valid**, whatever the log holds. -/
theorem valid_of_detected (h : d.detected? = some g) : g.Valid := by
  unfold detected? at h
  split at h
  · rename_i data parity hd hp
    split at h
    · rename_i hbounds
      cases h
      exact ⟨hbounds.1, hbounds.2.1, le_trans (Nat.le_add_right _ 2) (PulseLog.periods_add_le hd hp)⟩
    · cases h
  · cases h

/-- The receiver that starts over with another geometry. -/
def retuned (d : Decoder) (g : Geometry) : Decoder :=
  { d with geometry := g, sets := [], floor := none, retunes := d.retunes + 1 }

/-- A receiver starts over exactly where its log names another geometry. -/
theorem retune_cases (hlt : d.retunes + 1 < wordLimit) (shared : Shared) :
    d.retune shared = .ok ⟨d, shared, []⟩ ∧ (∀ g, d.detected? = some g → g = d.geometry) ∨
      ∃ g shared', d.detected? = some g ∧ g ≠ d.geometry ∧
        d.retune shared = .ok ⟨d.retuned g, shared', []⟩ := by
  unfold retune
  cases hdet : d.detected? with
  | none => exact .inl ⟨rfl, nofun⟩
  | some g =>
    by_cases hg : g = d.geometry
    · exact .inl ⟨if_pos hg, fun g' hg' => Option.some.inj hg' ▸ hg⟩
    · refine .inr ⟨g, ((shared.release d.sets.buffers).gauge .shardSets 0).gauge .shardMin 0, rfl, hg, ?_⟩
      simp only [if_neg hg, Geometry.validate_eq_ok_iff.2 (valid_of_detected hdet), adopt, Checked.add_eq hlt]
      rfl

/-- Whatever a receiver does with such a shard, it stays as it was or starts over. -/
theorem retune_eq_ok {t : Decoded} (h : d.retune shared = .ok t) :
    t.decoder = d ∨ ∃ g, d.detected? = some g ∧ t.decoder = d.retuned g := by
  unfold retune at h
  split at h
  · cases h; exact .inl rfl
  rename_i g hdet
  split at h
  · cases h; exact .inl rfl
  split at h
  · refine .inr ⟨g, hdet, ?_⟩
    obtain ⟨retunes, hadd, h⟩ := Checked.bind_eq_ok.1 h
    unfold Checked.add at hadd
    split at hadd
    · cases hadd
      cases h
      rfl
    · cases hadd
  · cases h; exact .inl rfl

theorem errors_retune {t : Decoded} (h : d.retune shared = .ok t) :
    t.shared.counters.errors = shared.counters.errors := by
  unfold retune at h
  split at h
  · cases h; rfl
  split at h
  · cases h; rfl
  split at h
  · obtain ⟨_, -, h⟩ := Checked.bind_eq_ok.1 h
    cases h
    exact (errors_gauge (by decide) _ _).trans (errors_gauge (by decide) _ _)
  · cases h; rfl

/-! ### A packet -/

/-- The receiver that has taken note of a shard. -/
def noted (d : Decoder) (shard : Shard) : Decoder :=
  { d with log := d.log.sample shard.kind.isData shard.seqid }

theorem parse_eq_ok {packet : Bytes} {shard : Shard} (h : Shard.parse packet = .ok shard) :
    Header.read packet = .ok shard.header ∧ shard.bytes = packet ∧ headerSize ≤ packet.length := by
  unfold Shard.parse at h
  obtain ⟨header, hread, h⟩ := Checked.bind_eq_ok.1 h
  cases h
  refine ⟨hread, rfl, ?_⟩
  by_contra hshort
  rw [Header.read, if_pos (by omega)] at hread
  cases hread

/-- What is no shard leaves a receiver as it was. -/
theorem decode_of_parse_error {packet : Bytes} {e : Error} (h : Shard.parse packet = .error e) (d : Decoder)
    (shared : Shared) : d.decode shared packet = .ok ⟨d, shared, []⟩ := by
  unfold decode
  rw [h]

theorem decode_eq (hg : d.geometry.Valid) {packet : Bytes} {shard : Shard}
    (h : Shard.parse packet = .ok shard) (shared : Shared) :
    d.decode shared packet =
      if d.position shard < d.geometry.data ↔ shard.kind = .data
      then (d.noted shard).receive shared shard else (d.noted shard).retune shared := by
  have hfits : (if d.position shard < d.geometry.data then Kind.data else Kind.parity) = shard.kind ↔
      (d.position shard < d.geometry.data ↔ shard.kind = .data) := by
    split <;> cases shard.kind <;> simp [*]
  unfold decode
  rw [h]
  simp only [Geometry.kindAt_eq hg, Checked.ok_bind, ← hfits]
  rfl

theorem Sound.noted (h : d.Sound) (shard : Shard) : (d.noted shard).Sound := ⟨h.valid, h.sets⟩

/-- Whether a shard stands at its place: its kind is that of its place in the receiver's geometry. -/
def InPlace (d : Decoder) (shard : Shard) : Prop := d.position shard < d.geometry.data ↔ shard.kind = .data

/-- What taking a packet can do. -/
inductive Takes (d : Decoder) (shared : Shared) (packet : Bytes) (t : Decoded) : Prop
  /-- It is no shard. -/
  | refused (e : Error) (hparse : Shard.parse packet = .error e) (hdec : t.decoder = d)
      (hrec : t.recovered = [])
  /-- It stands at its place, but its group is behind the floor, or the set of its group absorbs it. -/
  | dropped (shard : Shard) (hparse : Shard.parse packet = .ok shard) (hplace : d.InPlace shard)
      (hold : d.behind (d.groupId shard) d.geometry.ring = true ∨
        (d.setOf shard).absorbs (d.position shard) = .ok true)
      (hdec : t.decoder = d.noted shard) (hrec : t.recovered = [])
  /-- It stands at its place and is put there. -/
  | settled (shard : Shard) (b : Buffer) (hparse : Shard.parse packet = .ok shard) (hplace : d.InPlace shard)
      (hnew : d.behind (d.groupId shard) d.geometry.ring = false)
      (hset : (d.noted shard).Settles shared shard b t)
  /-- It stands at a wrong place, and the log names no other geometry. -/
  | kept (shard : Shard) (hparse : Shard.parse packet = .ok shard) (hplace : ¬ d.InPlace shard)
      (hdet : ∀ g, (d.noted shard).detected? = some g → g = d.geometry)
      (hdec : t.decoder = d.noted shard) (hrec : t.recovered = [])
  /-- It stands at a wrong place, and the log names another geometry. -/
  | retuned (shard : Shard) (g : Geometry) (hparse : Shard.parse packet = .ok shard)
      (hplace : ¬ d.InPlace shard) (hdet : (d.noted shard).detected? = some g) (hne : g ≠ d.geometry)
      (hdec : t.decoder = (d.noted shard).retuned g) (hrec : t.recovered = [])

/-- A retune that returns has kept the receiver as it was, or has started it over. -/
theorem retune_takes {t : Decoded} (h : d.retune shared = .ok t) :
    t.recovered = [] ∧ (t.decoder = d ∧ (∀ g, d.detected? = some g → g = d.geometry) ∨
      ∃ g, d.detected? = some g ∧ g ≠ d.geometry ∧ t.decoder = d.retuned g) := by
  unfold retune at h
  cases hdet : d.detected? with
  | none =>
    rw [hdet] at h
    cases h
    exact ⟨rfl, .inl ⟨rfl, nofun⟩⟩
  | some g =>
    rw [hdet] at h
    simp only [Geometry.validate_eq_ok_iff.2 (valid_of_detected hdet)] at h
    split at h
    · rename_i hg
      cases h
      exact ⟨rfl, .inl ⟨rfl, fun g' hg' => Option.some.inj hg' ▸ hg⟩⟩
    · rename_i hg
      obtain ⟨retunes, hadd, h⟩ := Checked.bind_eq_ok.1 h
      unfold Checked.add at hadd
      split at hadd
      · cases hadd
        cases h
        exact ⟨rfl, .inr ⟨g, rfl, hg, rfl⟩⟩
      · cases hadd

/-- **What taking a packet can do**, whatever its bytes are. -/
theorem decode_takes (h : d.Sound) {packet : Bytes} {t : Decoded} (hdec : d.decode shared packet = .ok t) :
    d.Takes shared packet t := by
  cases hparse : Shard.parse packet with
  | error e =>
    rw [decode_of_parse_error hparse] at hdec
    cases hdec
    exact .refused e hparse rfl rfl
  | ok shard =>
    obtain ⟨-, hbytes, hlong⟩ := parse_eq_ok hparse
    rw [decode_eq h.valid hparse] at hdec
    split at hdec
    · rename_i hplace
      rcases receive_cases (h.noted shard) shared (by rwa [hbytes]) with ⟨hrec, hold⟩ | ⟨hnew, b, t', hrec, hset⟩
      · rw [hrec] at hdec
        cases hdec
        exact .dropped shard hparse hplace hold rfl rfl
      · rw [hrec] at hdec
        cases hdec
        exact .settled shard b hparse hplace hnew hset
    · rename_i hplace
      obtain ⟨hrec, ⟨hkept, hdet⟩ | ⟨g, hdet, hne, hret⟩⟩ := retune_takes hdec
      · exact .kept shard hparse hplace hdet hkept hrec
      · exact .retuned shard g hparse hplace hdet hne hret hrec

/-- A receiver that has taken a packet has sets that fit its geometry. -/
theorem Takes.sound (h : d.Sound) {packet : Bytes} {t : Decoded} (ht : d.Takes shared packet t) :
    t.decoder.Sound := by
  cases ht with
  | refused e hparse hdec hrec => rwa [hdec]
  | dropped shard hparse hplace hold hdec hrec => exact hdec ▸ h.noted shard
  | settled shard b hparse hplace hnew hset =>
    obtain ⟨-, hbytes, hlong⟩ := parse_eq_ok hparse
    have hfilled := sound_filled (h.noted shard) hset.vacant (b := b) (by rw [hset.bytes_eq, hbytes]; exact hlong)
    rw [hset.decoder_eq]
    exact (h.noted shard).settled _ hfilled
  | kept shard hparse hplace hdet hdec hrec => exact hdec ▸ h.noted shard
  | retuned shard g hparse hplace hdet hne hdec hrec => exact hdec ▸ ⟨valid_of_detected hdet, nofun⟩

/-- What taking a given shard can do. -/
theorem Takes.of_parse {packet : Bytes} {shard : Shard} {t : Decoded} (ht : d.Takes shared packet t)
    (hparse : Shard.parse packet = .ok shard) :
    (d.InPlace shard ∧
      (t.decoder = d.noted shard ∧ t.recovered = [] ∧ (d.behind (d.groupId shard) d.geometry.ring = true ∨
        (d.setOf shard).absorbs (d.position shard) = .ok true) ∨
      d.behind (d.groupId shard) d.geometry.ring = false ∧ ∃ b, (d.noted shard).Settles shared shard b t)) ∨
    ¬ d.InPlace shard ∧ t.recovered = [] ∧
      (t.decoder = d.noted shard ∧ (∀ g, (d.noted shard).detected? = some g → g = d.geometry) ∨
      ∃ g, (d.noted shard).detected? = some g ∧ g ≠ d.geometry ∧ t.decoder = (d.noted shard).retuned g) := by
  have hsame : ∀ {shard'}, Shard.parse packet = .ok shard' → shard' = shard := by
    intro shard' hparse'
    exact Except.ok.inj (hparse'.symm.trans hparse)
  cases ht with
  | refused e hparse' hdec hrec =>
    rw [hparse] at hparse'
    cases hparse'
  | dropped shard' hparse' hplace hold hdec hrec =>
    obtain rfl := hsame hparse'
    exact .inl ⟨hplace, .inl ⟨hdec, hrec, hold⟩⟩
  | settled shard' b hparse' hplace hnew hset =>
    obtain rfl := hsame hparse'
    exact .inl ⟨hplace, .inr ⟨hnew, b, hset⟩⟩
  | kept shard' hparse' hplace hdet hdec hrec =>
    obtain rfl := hsame hparse'
    exact .inr ⟨hplace, hrec, .inl ⟨hdec, hdet⟩⟩
  | retuned shard' g hparse' hplace hdet hne hdec hrec =>
    obtain rfl := hsame hparse'
    exact .inr ⟨hplace, hrec, .inr ⟨g, hdet, hne, hdec⟩⟩

/-- Every shard is noted, whatever becomes of it. -/
theorem Takes.log_eq {packet : Bytes} {shard : Shard} {t : Decoded} (ht : d.Takes shared packet t)
    (hparse : Shard.parse packet = .ok shard) : t.decoder.log = (d.noted shard).log := by
  rcases ht.of_parse hparse with ⟨-, ⟨hdec, -⟩ | ⟨-, b, hset⟩⟩ | ⟨-, -, ⟨hdec, -⟩ | ⟨g, -, -, hdec⟩⟩
  · rw [hdec]
  · rw [hset.decoder_eq]
    rfl
  · rw [hdec]
  · rw [hdec]
    rfl

end PacketFec.Decoder
