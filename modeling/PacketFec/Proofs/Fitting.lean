import Mathlib
import PacketFec.Proofs.HostileInput

/-!
# Traffic that fits a geometry

A packet fits a geometry if its kind is that of its place, as with all packets of a sender of that geometry. A
receiver of the same geometry takes such packets without ever starting over, whatever is lost, repeated or
reordered among them.

* `Geometry.Fits`: a packet whose kind is that of its place.
* `Geometry.stream`: the packets of a sender, from any sequence id on.
* `Decoder.decode_fitting`, `Decoder.after_fitting`: **traffic that fits leaves the geometry alone.**
-/

namespace PacketFec

/-- What is asked of a shard, if there is one, is asked of the shard that is read. -/
instance decidableForallOk {α : Type} (x : Except Error α) (p : α → Prop) [DecidablePred p] :
    Decidable (∀ v, x = .ok v → p v) :=
  match x with
  | .ok v => decidable_of_iff (p v) ⟨fun h _ heq => Except.ok.inj heq ▸ h, fun h => h v rfl⟩
  | .error _ => isTrue nofun

namespace Geometry

variable {g : Geometry} {base x n : ℕ} {bodies : ℕ → Bytes}

/-- The kind of a packet is that of its place. What is no shard fits any geometry. -/
def Fits (g : Geometry) (packet : Bytes) : Prop :=
  ∀ shard, Shard.parse packet = .ok shard → g.kindAt shard.seqid = .ok shard.kind

instance (g : Geometry) (packet : Bytes) : Decidable (g.Fits packet) := by unfold Fits; infer_instance

/-- The packet at a position behind `base` of a sender whose groups start at the multiples of their size. -/
def packetAt (g : Geometry) (base : ℕ) (bodies : ℕ → Bytes) (x : ℕ) : Bytes :=
  Header.toBytes ⟨g.seqidAt base x, if (base + x) % g.total < g.data then .data else .parity⟩ ++ bodies x

/-- The first `n` packets from `base` on. -/
def stream (g : Geometry) (base : ℕ) (bodies : ℕ → Bytes) (n : ℕ) : List Bytes :=
  (List.range n).map (g.packetAt base bodies)

theorem stream_succ (g : Geometry) (base : ℕ) (bodies : ℕ → Bytes) (n : ℕ) :
    g.stream base bodies (n + 1) = g.stream base bodies n ++ [g.packetAt base bodies n] := by
  rw [stream, List.range_succ, List.map_append, List.map_singleton, stream]

/-- The shard at a position behind `base`. -/
def shardAt (g : Geometry) (base : ℕ) (bodies : ℕ → Bytes) (x : ℕ) : Shard :=
  ⟨⟨g.seqidAt base x, if (base + x) % g.total < g.data then .data else .parity⟩, g.packetAt base bodies x⟩

theorem parse_packetAt (g : Geometry) (base : ℕ) (bodies : ℕ → Bytes) (x : ℕ) :
    Shard.parse (g.packetAt base bodies x) = .ok (g.shardAt base bodies x) := by
  rw [Shard.parse, packetAt, Header.read_toBytes_append]
  rfl

theorem fits_packetAt (hg : g.Valid) (base : ℕ) (bodies : ℕ → Bytes) (x : ℕ) :
    g.Fits (g.packetAt base bodies x) := by
  intro shard hparse
  obtain rfl : g.shardAt base bodies x = shard :=
    Except.ok.inj ((parse_packetAt g base bodies x).symm.trans hparse)
  show g.kindAt (g.seqidAt base x) = .ok (if (base + x) % g.total < g.data then .data else .parity)
  rw [kindAt_eq hg, toNat_seqidAt hg, Nat.mod_mod_of_dvd _ (total_dvd_ceiling g)]

end Geometry

namespace Decoder

variable {g : Geometry} {d : Decoder} {shared : Shared} {t : Decoded} {packet : Bytes} {shard : Shard}

/-- A shard stands at its place where its kind is the one expected there. -/
theorem inPlace_iff (hg : d.geometry.Valid) (shard : Shard) :
    d.InPlace shard ↔ d.geometry.kindAt shard.seqid = .ok shard.kind := by
  rw [InPlace, position, Geometry.kindAt_eq hg]
  split <;> cases shard.kind <;> simp [*]

/-- A shard at its place is dropped or settled. -/
theorem Takes.of_inPlace (ht : d.Takes shared packet t) (hparse : Shard.parse packet = .ok shard)
    (hplace : d.InPlace shard) :
    (t.decoder = d.noted shard ∧ t.recovered = [] ∧ (d.behind (d.groupId shard) d.geometry.ring = true ∨
      (d.setOf shard).absorbs (d.position shard) = .ok true)) ∨
    d.behind (d.groupId shard) d.geometry.ring = false ∧ ∃ b, (d.noted shard).Settles shared shard b t := by
  rcases ht.of_parse hparse with ⟨-, htaken⟩ | ⟨hmis, -⟩
  · exact htaken
  · exact absurd hplace hmis

/-- **A packet that fits leaves the geometry alone**, and is taken without a fault. -/
theorem decode_fitting (h : d.Sound) (hfits : d.geometry.Fits packet) (shared : Shared) :
    ∃ t, d.decode shared packet = .ok t ∧ t.decoder.Sound ∧ t.decoder.geometry = d.geometry ∧
      t.decoder.retunes = d.retunes := by
  cases hparse : Shard.parse packet with
  | error e => exact ⟨_, decode_of_parse_error hparse d shared, h, rfl, rfl⟩
  | ok shard =>
    obtain ⟨-, hbytes, hlong⟩ := parse_eq_ok hparse
    have hplace : d.InPlace shard := (inPlace_iff h.valid shard).2 (hfits shard hparse)
    have hdec : d.decode shared packet = (d.noted shard).receive shared shard :=
      (decode_eq h.valid hparse shared).trans (if_pos hplace)
    rcases receive_cases (h.noted shard) shared (by rwa [hbytes]) with ⟨hrec, -⟩ | ⟨-, b, t, hrec, hset⟩
    · exact ⟨_, hdec.trans hrec, h.noted shard, rfl, rfl⟩
    · have ht := decode_takes h (hdec.trans hrec)
      refine ⟨t, hdec.trans hrec, ht.sound h, ?_, ?_⟩
      · rw [hset.decoder_eq]
        rfl
      · rw [hset.decoder_eq]
        rfl

/-- **Traffic that fits leaves the geometry alone**, however long it is. -/
theorem after_fitting (h : d.Sound) {packets : List Bytes} (hfits : ∀ p ∈ packets, d.geometry.Fits p)
    (shared : Shared) :
    ∃ d' shared', d.after shared packets = .ok (d', shared') ∧ d'.Sound ∧ d'.geometry = d.geometry ∧
      d'.retunes = d.retunes := by
  induction packets generalizing d shared with
  | nil => exact ⟨d, shared, rfl, h, rfl, rfl⟩
  | cons packet rest ih =>
    obtain ⟨t, hdec, hsound, hgeo, hret⟩ := decode_fitting h (hfits packet (List.mem_cons_self ..)) shared
    obtain ⟨d', shared', hafter, hsound', hgeo', hret'⟩ := ih hsound
      (fun p hp => hgeo ▸ hfits p (List.mem_cons_of_mem _ hp)) t.shared
    refine ⟨d', shared', ?_, hsound', hgeo'.trans hgeo, hret'.trans hret⟩
    rw [after, hdec]
    exact hafter

end Decoder

end PacketFec
