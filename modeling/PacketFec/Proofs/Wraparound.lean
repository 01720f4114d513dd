import Mathlib
import PacketFec.Proofs.Delivery
import PacketFec.Proofs.Fitting

/-!
# The ceiling is a place like any other

Turn all sequence ids of some traffic by the same number of groups, around the ceiling. A receiver of the turned
traffic does what a receiver of the original traffic does: it gives back the same bodies, and it tracks the same
groups under turned ids. So nothing depends on where in the sequence space the traffic stands, and the wrap at the
ceiling is not special.

* `Geometry.turned`: a packet with its sequence id turned.
* `Decoder.Turned`: receivers that track the same groups under turned ids.
* `Decoder.Turned.decode`: one packet.
* `Decoder.turning_commutes`: **a receiver does the same with turned traffic.**
-/

namespace PacketFec

/-! ### Turning -/

namespace Geometry

variable {g : Geometry} {shift i j : ℕ}

/-- A packet with its sequence id moved on by `shift` around the ceiling. What is no shard stays as it is. -/
def turned (g : Geometry) (shift : ℕ) (packet : Bytes) : Bytes :=
  match Header.read packet with
  | .ok h => Header.toBytes { h with seqid := g.seqidAt shift h.seqid.toNat } ++ packet.drop headerSize
  | .error _ => packet

/-- A shard with its sequence id moved on. -/
def turnedShard (g : Geometry) (shift : ℕ) (shard : Shard) : Shard :=
  ⟨{ shard.header with seqid := g.seqidAt shift shard.seqid.toNat }, g.turned shift shard.bytes⟩

theorem turned_of_parse_error {packet : Bytes} {e : Error} (h : Shard.parse packet = .error e) :
    g.turned shift packet = packet := by
  unfold turned
  cases hread : Header.read packet with
  | error e' => rfl
  | ok header =>
    rw [Shard.parse, hread] at h
    cases h

theorem turned_of_parse (g : Geometry) (shift : ℕ) {packet : Bytes} {shard : Shard}
    (h : Shard.parse packet = .ok shard) :
    Shard.parse (g.turned shift packet) = .ok (g.turnedShard shift shard) ∧
      (g.turned shift packet).drop headerSize = packet.drop headerSize := by
  obtain ⟨hread, hbytes, -⟩ := Decoder.parse_eq_ok h
  have hturned : g.turned shift packet =
      Header.toBytes { shard.header with seqid := g.seqidAt shift shard.seqid.toNat } ++
        packet.drop headerSize := by
    unfold turned
    rw [hread]
    rfl
  constructor
  · rw [Shard.parse, turnedShard, hbytes, hturned, Header.read_toBytes_append]
    rfl
  · rw [hturned]
    exact List.drop_left' (Header.length_toBytes _)

/-- Turning moves no group with respect to another one. -/
theorem groupDistance_turned (hg : g.Valid) (shift i j : ℕ) :
    Serial.groupDistance (g.groupAt shift i) (g.groupAt shift j) g.ring = Serial.groupDistance i j g.ring := by
  apply Serial.groupDistance_congr (ring_pos hg)
  have h1 : (g.ring : ℤ) ∣ (g.groupAt shift i : ℤ) - ((shift / g.total : ℕ) + i) := by
    rw [groupAt]
    push_cast
    exact (Int.mod_modEq _ _).symm.dvd
  have h2 : (g.ring : ℤ) ∣ (g.groupAt shift j : ℤ) - ((shift / g.total : ℕ) + j) := by
    rw [groupAt]
    push_cast
    exact (Int.mod_modEq _ _).symm.dvd
  have hsum : (g.groupAt shift i : ℤ) - g.groupAt shift j - (i - j) =
      (g.groupAt shift i : ℤ) - ((shift / g.total : ℕ) + i) - (g.groupAt shift j - ((shift / g.total : ℕ) + j)) := by
    ring
  rw [hsum]
  exact dvd_sub h1 h2

/-- Turning keeps groups apart. -/
theorem groupAt_inj_of_lt (hi : i < g.ring) (hj : j < g.ring) (h : g.groupAt shift i = g.groupAt shift j) :
    i = j := by
  have hmod : i ≡ j [MOD g.ring] := Nat.ModEq.add_left_cancel' _ h
  exact hmod.eq_of_lt_of_lt hi hj

end Geometry

/-! ### Sets that hold the same bodies -/

namespace ShardSet

open Decoder

variable {s s' : ShardSet} {i : ℕ} {b b' : Buffer}

/-- Sets that hold the same bodies at the same places. -/
structure Alike (s s' : ShardSet) : Prop where
  members_eq : s'.members = s.members
  drained_eq : s'.drained = s.drained
  bodies_eq : bodiesIn s'.slots = bodiesIn s.slots

theorem alike_refl (s : ShardSet) : s.Alike s := ⟨rfl, rfl, rfl⟩

theorem Alike.length_eq (h : s.Alike s') : s'.slots.length = s.slots.length := by
  have hlen := congrArg List.length h.bodies_eq
  rwa [bodiesIn, bodiesIn, List.length_map, List.length_map] at hlen

theorem Alike.absorbs_eq (h : s.Alike s') (i : ℕ) : s'.absorbs i = s.absorbs i := by
  have hslot := congrArg (fun slots => slots[i]?) h.bodies_eq
  simp only [bodiesIn, List.getElem?_map] at hslot
  unfold absorbs
  rw [h.drained_eq]
  cases h1 : s.slots[i]? with
  | none =>
    rw [h1, Option.map_none, Option.map_eq_none_iff] at hslot
    rw [hslot]
  | some slot =>
    rw [h1, Option.map_some, Option.map_eq_some_iff] at hslot
    obtain ⟨slot', h2, heq⟩ := hslot
    rw [h2]
    have hsome := congrArg Option.isSome heq
    rw [Option.isSome_map, Option.isSome_map] at hsome
    simp only [hsome]

theorem Alike.insert (h : s.Alike s') (hb : b'.bytes.drop headerSize = b.bytes.drop headerSize) (i : ℕ) :
    (s.insert i b).Alike (s'.insert i b') where
  members_eq := congrArg (· + 1) h.members_eq
  drained_eq := h.drained_eq
  bodies_eq := by
    have hbodies := h.bodies_eq
    rw [bodiesIn, bodiesIn] at hbodies
    rw [bodiesIn, bodiesIn, ShardSet.insert, ShardSet.insert, List.map_set, List.map_set, hbodies, Option.map_some,
      Option.map_some, hb]

theorem Alike.drain (h : s.Alike s') : s.drain.Alike s'.drain where
  members_eq := rfl
  drained_eq := rfl
  bodies_eq := by rw [ShardSet.drain, ShardSet.drain, h.length_eq]

end ShardSet

/-! ### Tables of turned groups -/

namespace SetTable

variable {g : Geometry} {shift k : ℕ} {t t' : SetTable} {s s' : ShardSet}

section Renamed

variable {f : ℕ → ℕ} {P : ℕ → Prop}

/-- The same sets under ids that `f` renames, all of which are in `P`. -/
def Renamed (f : ℕ → ℕ) (P : ℕ → Prop) (t t' : SetTable) : Prop :=
  List.Forall₂ (fun a b => P a.1 ∧ b.1 = f a.1 ∧ a.2.Alike b.2) t t'

theorem Renamed.get? (h : Renamed f P t t') (hf : ∀ i j, P i → P j → f i = f j → i = j) (hk : P k) :
    t.get? k = none ∧ t'.get? (f k) = none ∨
      ∃ s s', t.get? k = some s ∧ t'.get? (f k) = some s' ∧ s.Alike s' := by
  induction h with
  | nil => exact .inl ⟨rfl, rfl⟩
  | @cons a b rest rest' hab _ ih =>
    obtain ⟨hi, hid, halike⟩ := hab
    obtain ⟨i, s⟩ := a
    obtain ⟨j, s'⟩ := b
    obtain rfl : j = f i := hid
    rw [get?_cons, get?_cons]
    by_cases hki : k = i
    · rw [if_pos hki, if_pos (by rw [hki])]
      exact .inr ⟨s, s', rfl, rfl, halike⟩
    · rw [if_neg hki, if_neg fun heq => hki (hf k i hk hi heq)]
      exact ih

theorem Renamed.put (h : Renamed f P t t') (hf : ∀ i j, P i → P j → f i = f j → i = j) (hk : P k)
    (hs : s.Alike s') : Renamed f P (t.put k s) (t'.put (f k) s') := by
  induction h with
  | nil => exact .cons ⟨hk, rfl, hs⟩ .nil
  | @cons a b rest rest' hab hrest ih =>
    obtain ⟨hi, hid, halike⟩ := hab
    obtain ⟨i, old⟩ := a
    obtain ⟨j, old'⟩ := b
    obtain rfl : j = f i := hid
    unfold SetTable.put
    by_cases hik : i = k
    · rw [if_pos hik, if_pos (by rw [hik])]
      exact .cons ⟨hi, rfl, hs⟩ hrest
    · rw [if_neg hik, if_neg fun heq => hik (hf i k hi hk heq)]
      exact .cons ⟨hi, rfl, halike⟩ ih

/-- Filters that agree on renamed ids keep the same sets. -/
theorem Renamed.filter (h : Renamed f P t t') {p q : ℕ → Bool} (hpq : ∀ id, q (f id) = p id) :
    Renamed f P (t.filter fun entry => p entry.1) (t'.filter fun entry => q entry.1) := by
  induction h with
  | nil => exact .nil
  | @cons a b rest rest' hab _ ih =>
    rw [List.filter_cons, List.filter_cons, hab.2.1, hpq]
    by_cases hp : p a.1 = true
    · rw [if_pos hp, if_pos hp]
      exact .cons hab ih
    · rw [if_neg hp, if_neg hp]
      exact ih

end Renamed

/-- The same sets under turned ids. -/
def Turned (g : Geometry) (shift : ℕ) (t t' : SetTable) : Prop :=
  List.Forall₂ (fun a b => a.1 < g.ring ∧ b.1 = g.groupAt shift a.1 ∧ a.2.Alike b.2) t t'

/-- Turning renames the ids on the circle. -/
theorem renamed_of_turned (h : Turned g shift t t') : Renamed (g.groupAt shift) (· < g.ring) t t' := h

theorem Turned.get? (h : Turned g shift t t') (hk : k < g.ring) :
    t.get? k = none ∧ t'.get? (g.groupAt shift k) = none ∨
      ∃ s s', t.get? k = some s ∧ t'.get? (g.groupAt shift k) = some s' ∧ s.Alike s' :=
  (renamed_of_turned h).get? (fun _ _ => Geometry.groupAt_inj_of_lt) hk

theorem Turned.put (h : Turned g shift t t') (hk : k < g.ring) (hs : s.Alike s') :
    Turned g shift (t.put k s) (t'.put (g.groupAt shift k) s') :=
  (renamed_of_turned h).put (fun _ _ => Geometry.groupAt_inj_of_lt) hk hs

/-- Filters that agree on turned ids keep the same sets. -/
theorem Turned.filter (h : Turned g shift t t') {p q : ℕ → Bool} (hpq : ∀ id, q (g.groupAt shift id) = p id) :
    Turned g shift (t.filter fun entry => p entry.1) (t'.filter fun entry => q entry.1) :=
  (renamed_of_turned h).filter hpq

end SetTable

/-! ### Two receivers -/

namespace Decoder

variable {g : Geometry} {shift : ℕ} {d e : Decoder} {shared shared' : Shared} {t u : Decoded} {packet : Bytes}
  {shard : Shard}

/-- Receivers of one geometry that track the same groups under turned ids. -/
structure Turned (g : Geometry) (shift : ℕ) (d e : Decoder) : Prop where
  left_geometry : d.geometry = g
  right_geometry : e.geometry = g
  floor_eq : e.floor = d.floor.map (g.groupAt shift)
  sets : SetTable.Turned g shift d.sets e.sets

theorem groupId_turnedShard (hd : d.geometry = g) (he : e.geometry = g) (hg : g.Valid) (hdvd : g.total ∣ shift)
    (shard : Shard) : e.groupId (g.turnedShard shift shard) = g.groupAt shift (d.groupId shard) := by
  unfold groupId
  rw [hd, he]
  exact Geometry.seqidAt_div hg hdvd _

theorem position_turnedShard (hd : d.geometry = g) (he : e.geometry = g) (hg : g.Valid) (hdvd : g.total ∣ shift)
    (shard : Shard) : e.position (g.turnedShard shift shard) = d.position shard := by
  unfold position
  rw [hd, he]
  exact Geometry.seqidAt_mod hg hdvd _

theorem groupId_lt_ring (hd : d.geometry = g) (hlt : shard.seqid.toNat < g.ceiling) :
    d.groupId shard < g.ring := by
  unfold groupId
  rw [hd]
  exact Nat.div_lt_of_lt_mul (by rwa [Nat.mul_comm])

theorem Turned.behind_eq (h : Turned g shift d e) (hg : g.Valid) (group : ℕ) :
    e.behind (g.groupAt shift group) g.ring = d.behind group g.ring := by
  unfold behind
  rw [h.floor_eq]
  cases d.floor with
  | none => rfl
  | some floor => simp only [Option.map_some, Geometry.groupDistance_turned hg]

theorem Turned.newest_eq (h : Turned g shift d e) (hg : g.Valid) (group : ℕ) :
    e.newest (g.groupAt shift group) = g.groupAt shift (d.newest group) := by
  unfold newest
  rw [h.floor_eq, h.left_geometry, h.right_geometry]
  cases d.floor with
  | none => rfl
  | some floor =>
    simp only [Option.map_some, Geometry.groupDistance_turned hg]
    split <;> rfl

/-- The sets that a shard and the turned shard belong to hold the same bodies. -/
theorem Turned.setOf (h : Turned g shift d e) (hg : g.Valid) (hdvd : g.total ∣ shift)
    (hlt : shard.seqid.toNat < g.ceiling) : (d.setOf shard).Alike (e.setOf (g.turnedShard shift shard)) := by
  unfold Decoder.setOf
  rw [groupId_turnedShard h.left_geometry h.right_geometry hg hdvd]
  rcases h.sets.get? (groupId_lt_ring h.left_geometry hlt) with ⟨h1, h2⟩ | ⟨s, s', h1, h2, halike⟩
  · rw [h1, h2, h.left_geometry, h.right_geometry]
    exact ShardSet.alike_refl _
  · rw [h1, h2]
    exact halike

theorem Turned.noted (h : Turned g shift d e) (shard shard' : Shard) :
    Turned g shift (d.noted shard) (e.noted shard') :=
  ⟨h.left_geometry, h.right_geometry, h.floor_eq, h.sets⟩

/-- Settling a shard and the turned shard. -/
theorem Turned.settled (h : Turned g shift d e) (hg : g.Valid) {group : ℕ} (hlt : group < g.ring)
    {s s' : ShardSet} (hs : s.Alike s') :
    Turned g shift (d.settled group s) (e.settled (g.groupAt shift group) s') where
  left_geometry := h.left_geometry
  right_geometry := h.right_geometry
  floor_eq := congrArg some (h.newest_eq hg group)
  sets := by
    have hlags : ∀ id, (!lags (g.groupAt shift (d.newest group)) g.ring (g.groupAt shift id)) =
        !lags (d.newest group) g.ring id := by
      intro id
      rw [lags, lags, Geometry.groupDistance_turned hg]
    unfold Decoder.settled
    rw [h.left_geometry, h.right_geometry, h.newest_eq hg]
    exact (h.sets.put hlt hs).filter (p := fun id => !lags (d.newest group) g.ring id)
      (q := fun id => !lags (g.groupAt shift (d.newest group)) g.ring id) hlags

/-- What settling gives depends only on the bodies. -/
theorem Settles.alike {b b' : Buffer} (hd : d.geometry = g) (he : e.geometry = g) {shard' : Shard}
    (hs : d.Settles shared shard b t) (hs' : e.Settles shared' shard' b' u)
    (hset : (d.setOf shard).Alike (e.setOf shard')) (hposition : e.position shard' = d.position shard)
    (hbody : shard'.bytes.drop headerSize = shard.bytes.drop headerSize) :
    (d.filled shard b).Alike (e.filled shard' b') ∧ u.recovered.map (·.bytes) = t.recovered.map (·.bytes) := by
  have hb : b'.bytes.drop headerSize = b.bytes.drop headerSize := by rw [hs.bytes_eq, hs'.bytes_eq, hbody]
  have hins := hset.insert hb (d.position shard)
  constructor
  · unfold filled
    simp only [hposition, hd, he, hins.members_eq]
    split
    · exact hins.drain
    · exact hins
  · rw [hs.recovered_eq, hs'.recovered_eq, hposition, hd, he, hset.members_eq]
    unfold rebuilt
    rw [hins.bodies_eq]

/-- **One packet.** The receivers give back the same bodies and stay turned. -/
theorem Turned.decode (h : Turned g shift d e) (hd : d.Sound) (he : e.Sound) (hdvd : g.total ∣ shift)
    (hfits : g.Fits packet) (hlt : ∀ shard, Shard.parse packet = .ok shard → shard.seqid.toNat < g.ceiling)
    (ht : d.decode shared packet = .ok t) (hu : e.decode shared' (g.turned shift packet) = .ok u) :
    u.recovered.map (·.bytes) = t.recovered.map (·.bytes) ∧ Turned g shift t.decoder u.decoder := by
  have hg : g.Valid := h.left_geometry ▸ hd.valid
  cases hparse : Shard.parse packet with
  | error err =>
    rw [Geometry.turned_of_parse_error hparse, decode_of_parse_error hparse] at hu
    rw [decode_of_parse_error hparse] at ht
    cases ht
    cases hu
    exact ⟨rfl, h⟩
  | ok shard =>
    obtain ⟨hparse', hbody⟩ := Geometry.turned_of_parse g shift hparse
    set shard' := g.turnedShard shift shard with hshard'
    have hgroup := groupId_turnedShard h.left_geometry h.right_geometry hg hdvd shard
    have hposition := position_turnedShard h.left_geometry h.right_geometry hg hdvd shard
    have hset := h.setOf hg hdvd (hlt shard hparse)
    have hbehind : e.behind (e.groupId shard') e.geometry.ring = d.behind (d.groupId shard) d.geometry.ring := by
      rw [hgroup, h.left_geometry, h.right_geometry, h.behind_eq hg]
    have habsorbs : (e.setOf shard').absorbs (e.position shard') = (d.setOf shard).absorbs (d.position shard) := by
      rw [hposition, hset.absorbs_eq]
    -- both stand at their places
    have hplace : d.InPlace shard := (inPlace_iff hd.valid shard).2 (h.left_geometry ▸ hfits shard hparse)
    have hplace' : e.InPlace shard' := by
      unfold InPlace at hplace ⊢
      rw [hposition, h.right_geometry, ← h.left_geometry]
      exact hplace
    -- what makes one of them drop its shard makes the other one do so too
    rcases (decode_takes hd ht).of_inPlace hparse hplace with ⟨hdec, hrec, hold⟩ | ⟨hnew, b, hs⟩
    · rcases (decode_takes he hu).of_inPlace hparse' hplace' with ⟨hdec', hrec', -⟩ | ⟨hnew', b', hs'⟩
      · rw [hdec, hdec', hrec, hrec']
        exact ⟨rfl, h.noted shard shard'⟩
      · have hvacant : (e.setOf shard').absorbs (e.position shard') = .ok false :=
          absorbs_of_settles (d := e.noted shard') hs'
        rcases hold with hold | hold
        · rw [← hbehind, hnew'] at hold
          cases hold
        · rw [← habsorbs, hvacant] at hold
          cases hold
    · have hvacant : (d.setOf shard).absorbs (d.position shard) = .ok false :=
        absorbs_of_settles (d := d.noted shard) hs
      rcases (decode_takes he hu).of_inPlace hparse' hplace' with ⟨-, -, hold⟩ | ⟨hnew', b', hs'⟩
      · rcases hold with hold | hold
        · rw [hbehind, hnew] at hold
          cases hold
        · rw [habsorbs, hvacant] at hold
          cases hold
      · -- both settle their shards, into sets that are alike
        have hbytes : shard'.bytes.drop headerSize = shard.bytes.drop headerSize := by
          rw [(parse_eq_ok hparse').2.1, (parse_eq_ok hparse).2.1]
          exact hbody
        obtain ⟨hfilled, hrec⟩ := Settles.alike (d := d.noted shard) (e := e.noted shard') h.left_geometry
          h.right_geometry hs hs' hset hposition hbytes
        refine ⟨hrec, ?_⟩
        rw [hs.decoder_eq, hs'.decoder_eq]
        have hgroup' : (e.noted shard').groupId shard' = g.groupAt shift ((d.noted shard).groupId shard) := hgroup
        rw [hgroup']
        exact (h.noted shard shard').settled hg (groupId_lt_ring h.left_geometry (hlt shard hparse)) hfilled

/-- **Any packets.** Receivers of traffic and of turned traffic stay turned. -/
theorem Turned.after (h : Turned g shift d e) (hd : d.Sound) (he : e.Sound) (hdvd : g.total ∣ shift)
    {packets : List Bytes} (hfits : ∀ p ∈ packets, g.Fits p ∧
      ∀ shard, Shard.parse p = .ok shard → shard.seqid.toNat < g.ceiling) {d' e' : Decoder} {s s' : Shared}
    (hafter : d.after shared packets = .ok (d', s))
    (hafter' : e.after shared' (packets.map (g.turned shift)) = .ok (e', s')) :
    d'.Sound ∧ e'.Sound ∧ Turned g shift d' e' := by
  induction packets generalizing d e shared shared' with
  | nil =>
    cases hafter
    cases hafter'
    exact ⟨hd, he, h⟩
  | cons packet rest ih =>
    rw [Decoder.after] at hafter
    rw [List.map_cons, Decoder.after] at hafter'
    obtain ⟨t, hdec, hrest⟩ := Checked.bind_eq_ok.1 hafter
    obtain ⟨u, hdec', hrest'⟩ := Checked.bind_eq_ok.1 hafter'
    obtain ⟨hpacket, hlt⟩ := hfits packet (List.mem_cons_self ..)
    obtain ⟨-, hnext⟩ := h.decode hd he hdvd hpacket hlt hdec hdec'
    exact ih hnext ((decode_takes hd hdec).sound hd) ((decode_takes he hdec').sound he)
      (fun p hp => hfits p (List.mem_cons_of_mem _ hp)) hrest hrest'

theorem Turned.tracked_eq (h : Turned g shift d e) : e.tracked = d.tracked := h.sets.length_eq.symm

theorem Turned.membership_eq (h : Turned g shift d e) {group : ℕ} (hlt : group < g.ring) :
    e.membership (g.groupAt shift group) = d.membership group := by
  unfold membership
  rcases h.sets.get? hlt with ⟨h1, h2⟩ | ⟨s, s', h1, h2, halike⟩
  · rw [h1, h2]
  · rw [h1, h2, Option.map_some, Option.map_some, halike.members_eq]

end Decoder

namespace Geometry

variable {g : Geometry} {shift : ℕ} {packet : Bytes}

/-- Turned traffic fits the geometry as well. -/
theorem fits_turned (hg : g.Valid) (hdvd : g.total ∣ shift) (h : g.Fits packet) :
    g.Fits (g.turned shift packet) := by
  intro shard' hparse'
  cases hparse : Shard.parse packet with
  | error e =>
    rw [turned_of_parse_error hparse, hparse] at hparse'
    cases hparse'
  | ok shard =>
    obtain ⟨hturned, -⟩ := turned_of_parse g shift hparse
    obtain rfl : g.turnedShard shift shard = shard' := Except.ok.inj (hturned.symm.trans hparse')
    have hkind := h shard hparse
    rw [kindAt_eq hg] at hkind ⊢
    have hplace : (g.turnedShard shift shard).seqid.toNat % g.total = shard.seqid.toNat % g.total :=
      seqidAt_mod hg hdvd _
    rw [hplace]
    exact hkind

end Geometry

open Decoder in
/-- **A receiver does the same with turned traffic.** Take any packets that fit a geometry, with sequence ids below
the ceiling, and turn them by any number of groups. New receivers of the geometry take both, whatever pools they
use. At every packet they give back the same bodies, and behind it they track as many groups, with as many shards
of each group, and have the same floor, all under turned ids. -/
theorem turning_commutes {g : Geometry} {shift : ℕ} {packets : List Bytes} {packet : Bytes} (hg : g.Valid)
    (hdvd : g.total ∣ shift) (hfits : ∀ p ∈ packets ++ [packet], g.Fits p)
    (hlt : ∀ p ∈ packets ++ [packet], ∀ shard, Shard.parse p = .ok shard → shard.seqid.toNat < g.ceiling)
    (shared shared' : Shared) :
    ∃ d₀ d e s s' t u, Decoder.create g = .ok d₀ ∧ d₀.after shared packets = .ok (d, s) ∧
      d₀.after shared' (packets.map (g.turned shift)) = .ok (e, s') ∧ d.decode s packet = .ok t ∧
      e.decode s' (g.turned shift packet) = .ok u ∧ u.recovered.map (·.bytes) = t.recovered.map (·.bytes) ∧
      u.decoder.tracked = t.decoder.tracked ∧ u.decoder.floor = t.decoder.floor.map (g.groupAt shift) ∧
      ∀ group < g.ring, u.decoder.membership (g.groupAt shift group) = t.decoder.membership group := by
  set d₀ : Decoder := ⟨g, [], none, .empty, 0⟩ with hd₀
  have hsound : d₀.Sound := ⟨hg, nofun⟩
  have hturned : Turned g shift d₀ d₀ := ⟨rfl, rfl, rfl, .nil⟩
  have hpast : ∀ p ∈ packets, g.Fits p := fun p hp => hfits p (List.mem_append_left _ hp)
  have hpast' : ∀ p ∈ packets.map (g.turned shift), g.Fits p := by
    intro p hp
    obtain ⟨p', hp', rfl⟩ := List.mem_map.1 hp
    exact Geometry.fits_turned hg hdvd (hpast p' hp')
  obtain ⟨d, s, hafter, hd, hgeo, -⟩ := after_fitting hsound hpast shared
  obtain ⟨e, s', hafter', he, hgeo', -⟩ := after_fitting hsound hpast' shared'
  have hlast : packet ∈ packets ++ [packet] := List.mem_append_right _ (List.mem_singleton_self _)
  have hnext : d.geometry.Fits packet := by
    rw [hgeo]
    exact hfits packet hlast
  have hnext' : e.geometry.Fits (g.turned shift packet) := by
    rw [hgeo']
    exact Geometry.fits_turned hg hdvd (hfits packet hlast)
  obtain ⟨t, hdec, -⟩ := decode_fitting hd hnext s
  obtain ⟨u, hdec', -⟩ := decode_fitting he hnext' s'
  obtain ⟨-, -, hafterTurned⟩ := hturned.after hsound hsound hdvd (fun p hp =>
    ⟨hpast p hp, hlt p (List.mem_append_left _ hp)⟩) hafter hafter'
  obtain ⟨hrec, hturned'⟩ := hafterTurned.decode hd he hdvd (hfits packet hlast) (hlt packet hlast) hdec hdec'
  exact ⟨d₀, d, e, s, s', t, u, create_eq_ok_iff.2 ⟨hg, rfl⟩, hafter, hafter', hdec, hdec', hrec, hturned'.tracked_eq,
    hturned'.floor_eq, fun group hgroup => hturned'.membership_eq hgroup⟩

set_option maxRecDepth 20000 in
/-- The first packet of a group is lost, in the second group of a sender and in the first one behind the ceiling. -/
theorem turning_commutes_across_ceiling : (⟨2, 1⟩ : Geometry).total ∣ 4294967292 ∧
    ∃ d₀ d e s s' t u, Decoder.create ⟨2, 1⟩ = .ok d₀ ∧
      d₀.after ⟨.create 16 8, .zero⟩ [[0, 0, 0, 0, 241, 0, 7], [4, 0, 0, 0, 241, 0, 8]] = .ok (d, s) ∧
      d₀.after ⟨.create 4 2, .zero⟩ ([[0, 0, 0, 0, 241, 0, 7], [4, 0, 0, 0, 241, 0, 8]].map
        ((⟨2, 1⟩ : Geometry).turned 4294967292)) = .ok (e, s') ∧
      d.decode s [5, 0, 0, 0, 242, 0, 9] = .ok t ∧
      e.decode s' ((⟨2, 1⟩ : Geometry).turned 4294967292 [5, 0, 0, 0, 242, 0, 9]) = .ok u ∧
      u.recovered.map (·.bytes) = t.recovered.map (·.bytes) ∧ u.decoder.tracked = t.decoder.tracked ∧
      u.decoder.floor = t.decoder.floor.map ((⟨2, 1⟩ : Geometry).groupAt 4294967292) ∧
      ∀ group < (⟨2, 1⟩ : Geometry).ring,
        u.decoder.membership ((⟨2, 1⟩ : Geometry).groupAt 4294967292 group) = t.decoder.membership group :=
  ⟨by decide, turning_commutes (by decide) (by decide) (by decide +kernel) (by decide +kernel) _ _⟩

end PacketFec
