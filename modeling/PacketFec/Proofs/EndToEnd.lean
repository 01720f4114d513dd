import Mathlib
import PacketFec.Proofs.Delivery

/-!
# Recovery from end to end

A sender seals packets, a channel delivers some of the shards, and a new receiver of the same geometry takes
them. As soon as it has heard `D` places of a group it gives back the packets of the group that are missing,
and it gives back nothing else.

* `Decoder.after_holding`: any deliveries of a stream.
* `Encoder.stream_of_run`: what a run puts on the wire is a stream.
* `exact_recovery`: **the receiver gives back exactly what is missing.**
-/

namespace PacketFec

namespace Decoder

variable {g : Geometry} {base : ℕ} {bodies : ℕ → List Bytes} {history : List WireShard}

theorem holding_create (hg : g.Valid) (base : ℕ) (bodies : ℕ → List Bytes) :
    ∃ d, create g = .ok d ∧ d.Holding g base bodies [] := by
  refine ⟨_, create_eq_ok_iff.2 ⟨hg, rfl⟩, ⟨hg, nofun⟩, rfl, fun _ => rfl, fun m hm => ?_, fun m hm => ?_, nofun⟩
  · obtain ⟨v, hv, -⟩ := hm.occurs
    cases hv
  · obtain ⟨v, hv, -⟩ := hm.occurs
    cases hv

/-- **Any deliveries.** They are taken without a fault, and the receiver knows what it has heard. -/
theorem after_holding {d : Decoder} (hold : d.Holding g base bodies []) (hs : Stream g base bodies history)
    (shared : Shared) :
    ∃ d' shared', d.after shared (history.map (·.bytes)) = .ok (d', shared') ∧
      d'.Holding g base bodies history := by
  induction history using List.reverseRecOn with
  | nil => exact ⟨d, shared, rfl, hold⟩
  | append_singleton rest w ih =>
    have hrest : Stream g base bodies rest :=
      { hs with
        genuine := fun v hv => hs.genuine v (List.mem_append_left _ hv)
        near := fun v hv => hs.near v (List.mem_append_left _ hv) }
    obtain ⟨d', shared', hafter, hold'⟩ := ih hrest
    obtain ⟨t, hdec, hnext, -⟩ := decode_holding hold' hs shared'
    refine ⟨t.decoder, t.shared, ?_, hnext⟩
    rw [List.map_append, List.map_singleton, after_concat, hafter]
    simp only [Checked.ok_bind, hdec]
    rfl

end Decoder

namespace Encoder

variable {g : Geometry} {offset size base : ℕ} {e : Encoder}

theorem width_groupBodies_pos {past : List Call} {k : ℕ} (hg : g.Valid)
    (hfull : (groupBodies offset g past k).length = g.data) : 0 < width (groupBodies offset g past k) := by
  have hd := hg.data_pos
  have hmem := List.getElem_mem (l := groupBodies offset g past k) (n := 0) (by omega)
  obtain ⟨c, -, hc⟩ := List.mem_map.1 hmem
  exact width_pos_of_encode (hc ▸ hmem)

/-- What a run puts on the wire is a stream, if it spans less than half of the ring. -/
theorem stream_of_run (h : e.Follows g offset size base []) (counters : Counters) (calls : List Call)
    (hspan : 2 * (((e.sent counters calls).length + g.data - 1) / g.data) < g.ring) {history : List WireShard}
    (hdel : ∀ v ∈ history, v ∈ wire g offset (e.sent counters calls)) :
    Stream g base (groupBodies offset g ((e.sent counters calls).map Prod.fst)) history where
  valid := h.tracks.valid
  aligned := h.tracks.aligned
  length_le k := by
    rw [length_groupBodies]
    exact min_le_left _ _
  width_pos k hk := width_groupBodies_pos h.tracks.valid hk
  genuine v hv := genuine_of_mem_wire h counters calls (hdel v hv)
  near v hv := by
    obtain ⟨i, c, s, hi, hgroup, -⟩ := mem_wire (hdel v hv)
    have hlt := (List.getElem?_eq_some_iff.1 hi).1
    have hle : i / g.data ≤ ((e.sent counters calls).length + g.data - 1) / g.data :=
      Nat.div_le_div_right (by omega)
    omega

/-- A buffer that gives back the packet at a place of a group of a run. It holds the framed body that was sent,
filled up to the longest body of the group, and the payload can be read off it. -/
def GivesBack (g : Geometry) (offset : ℕ) (sent : List (Call × Sealed)) (k p : ℕ) (b : Buffer) : Prop :=
  ∃ c s, sent[k * g.data + p]? = some (c, s) ∧
    b.bytes = (c.body offset).resize (width (groupBodies offset g (sent.map Prod.fst) k)) 0 ∧
    Frame.payload? b.bytes = some (c.packet.drop (offset + framingSize))

/-- The bodies of a complete group, filled up, give back its packets. -/
theorem givesBack (h : e.Follows g offset size base []) (counters : Counters) (calls : List Call) {k p : ℕ}
    (hfull : (groupBodies offset g ((e.sent counters calls).map Prod.fst) k).length = g.data) (hp : p < g.data)
    {b : Buffer}
    (hb : b.bytes = (evened (groupBodies offset g ((e.sent counters calls).map Prod.fst) k)).getD p []) :
    GivesBack g offset (e.sent counters calls) k p b := by
  set sent := e.sent counters calls with hsent
  set bodies := groupBodies offset g (sent.map Prod.fst) k with hbodies
  have hget : bodies[p]? = (sent.map Prod.fst)[k * g.data + p]?.map (Call.body offset) := groupBodies_getElem? hp
  rw [List.getElem?_eq_getElem (by omega), List.getElem?_map] at hget
  cases hs : sent[k * g.data + p]? with
  | none =>
    rw [hs] at hget
    cases hget
  | some a =>
    obtain ⟨c, s⟩ := a
    rw [hs] at hget
    have hbody : bodies[p] = c.body offset := Option.some.inj hget
    have hbytes : b.bytes = (c.body offset).resize (width bodies) 0 := by
      rw [hb, List.getD_eq_getElem _ _ (by rw [length_evened]; omega), ← hbody]
      simp [evened]
    obtain ⟨e', -, hseals⟩ := (answers_follow h counters calls).2.2 _ c s hs
    refine ⟨c, s, hs, hbytes, ?_⟩
    rw [hbytes]
    apply Frame.payload?_resize hseals.short
    have := length_le_width (List.getElem_mem (l := bodies) (n := p) (by omega))
    rw [hbody] at this
    exact this

end Encoder

open Encoder in
/-- **The receiver gives back exactly what is missing.** Take a sender of any geometry, header offset and first
sequence id, any calls whose successful ones span less than half of the ring, and any deliveries of the shards
that they put on the wire. A new receiver of that geometry takes them all. The delivery that brings the last of
`D` places of its group, before any shard of a later group, gives back the other data shards of the group in
order. Every other delivery gives back nothing. -/
theorem exact_recovery {g : Geometry} {offset groups : ℕ} {pool pool' : BufferPool} {e e₀ : Encoder}
    {seqid : UInt32} {counters : Counters} {calls : List Call} {history : List WireShard} {w : WireShard}
    (hcreate : Encoder.create g offset pool = .ok (e, pool')) (hstart : e.startAt seqid = .ok e₀)
    (hgroups : g.groupCount = .ok groups)
    (hspan : 2 * (((e₀.sent counters calls).length + g.data - 1) / g.data) < groups)
    (hdel : ∀ v ∈ history ++ [w], v ∈ wire g offset (e₀.sent counters calls)) (shared : Shared) :
    ∃ d₀ d shared' t, Decoder.create g = .ok d₀ ∧
      d₀.after shared (history.map (·.bytes)) = .ok (d, shared') ∧ d.decode shared' w.bytes = .ok t ∧
      (Completes g history w → List.Forall₂ (GivesBack g offset (e₀.sent counters calls) w.group)
        (lost g history w) t.recovered) ∧
      (¬ Completes g history w → t.recovered = []) := by
  obtain ⟨e₁, hstart', hfollows, -⟩ := follows_nil hcreate seqid
  obtain rfl : e₁ = e₀ := Except.ok.inj (hstart'.symm.trans hstart)
  have hg := hfollows.tracks.valid
  obtain rfl : g.ring = groups := Except.ok.inj ((Geometry.groupCount_eq_ring hg).symm.trans hgroups)
  have hs := stream_of_run hfollows counters calls hspan hdel
  have hs' := stream_of_run hfollows counters calls hspan fun v hv => hdel v (List.mem_append_left _ hv)
  obtain ⟨d₀, hnew, hold₀⟩ := Decoder.holding_create hg e₁.next.toNat
    (groupBodies offset g ((e₁.sent counters calls).map Prod.fst))
  obtain ⟨d, shared', hafter, hold⟩ := Decoder.after_holding hold₀ hs' shared
  obtain ⟨t, hdec, -, hrec⟩ := Decoder.decode_holding hold hs shared'
  refine ⟨d₀, d, shared', t, hnew, hafter, hdec, fun hc => ?_, fun hc => ?_⟩
  · rw [if_pos hc] at hrec
    have hfull := Decoder.length_of_completes hs hc
    -- place by place, what came back is the body of the packet
    set body := fun p =>
      (evened (groupBodies offset g ((e₁.sent counters calls).map Prod.fst) w.group)).getD p [] with hbody
    have hmap : List.Forall₂ Eq ((lost g history w).map body) (t.recovered.map (·.bytes)) := by
      rw [hrec]
      exact List.forall₂_refl _
    have hall : List.Forall₂ (fun p b => p < g.data ∧ body p = b.bytes) (lost g history w) t.recovered := by
      rw [List.forall₂_and_left]
      exact ⟨fun p hp => List.mem_range.1 (List.mem_filter.1 hp).1,
        List.forall₂_map_right_iff.1 (List.forall₂_map_left_iff.1 hmap)⟩
    exact hall.imp fun p b hpb => givesBack hfollows counters calls hfull hpb.1 hpb.2.symm
  · rw [if_neg hc] at hrec
    exact List.map_eq_nil_iff.1 hrec

open Encoder in
/-- The first of two packets is lost on the way, and the parity of their group gives it back. -/
theorem exact_recovery_of_lost_packet : ∃ e pool' e₀ d₀ d shared' t,
    Encoder.create ⟨2, 1⟩ 0 (.create 16 8) = .ok (e, pool') ∧ e.startAt 4294967292 = .ok e₀ ∧
      Decoder.create ⟨2, 1⟩ = .ok d₀ ∧
      d₀.after ⟨.create 16 8, .zero⟩ [[253, 255, 255, 255, 241, 0, 4, 0, 7, 7]] = .ok (d, shared') ∧
      d.decode shared' [254, 255, 255, 255, 242, 0, 13, 0, 7, 14] = .ok t ∧
      List.Forall₂ (GivesBack ⟨2, 1⟩ 0 (e₀.sent .zero [⟨.replicate 9 7, 5, 0⟩, ⟨.replicate 10 7, 5, 3⟩]) 0)
        [0] t.recovered := by
  obtain ⟨e, pool', e₀, hcreate, hstart, hwire⟩ : ∃ e pool' e₀,
      Encoder.create ⟨2, 1⟩ 0 (.create 16 8) = .ok (e, pool') ∧ e.startAt 4294967292 = .ok e₀ ∧
        (e₀.sent .zero [⟨.replicate 9 7, 5, 0⟩, ⟨.replicate 10 7, 5, 3⟩]).length = 2 ∧
        wire ⟨2, 1⟩ 0 (e₀.sent .zero [⟨.replicate 9 7, 5, 0⟩, ⟨.replicate 10 7, 5, 3⟩]) =
          [⟨0, 0, [252, 255, 255, 255, 241, 0, 3, 0, 7]⟩, ⟨0, 1, [253, 255, 255, 255, 241, 0, 4, 0, 7, 7]⟩,
            ⟨0, 2, [254, 255, 255, 255, 242, 0, 13, 0, 7, 14]⟩] :=
    ⟨_, _, _, rfl, rfl, by decide +kernel, by decide +kernel⟩
  have hdel : ∀ v ∈ ([⟨0, 1, [253, 255, 255, 255, 241, 0, 4, 0, 7, 7]⟩] : List WireShard) ++
      [⟨0, 2, [254, 255, 255, 255, 242, 0, 13, 0, 7, 14]⟩], v ∈ wire ⟨2, 1⟩ 0 (e₀.sent .zero
        [⟨.replicate 9 7, 5, 0⟩, ⟨.replicate 10 7, 5, 3⟩]) := by
    rw [hwire.2]
    decide
  obtain ⟨d₀, d, shared', t, hnew, hafter, hdec, hback, -⟩ := exact_recovery hcreate hstart rfl
    (by rw [hwire.1]; decide) hdel ⟨.create 16 8, .zero⟩
  exact ⟨e, pool', e₀, d₀, d, shared', t, hcreate, hstart, hnew, hafter, hdec, hback (by decide)⟩

end PacketFec
