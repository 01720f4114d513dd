import Mathlib
import PacketFec.Proofs.Detection
import PacketFec.Proofs.HostileInput
import PacketFec.Proofs.Wire

/-!
# The geometry that a receiver learns from a stream

A receiver of any geometry takes deliveries of one stream. Whenever it starts over with another geometry, it
has measured two runs of the stream from their left edges on. It learns the geometry of the sender exactly
where both runs are measured from their first shard. Behind a lost shard they need not be: the log takes a
slot that has been cleared, or that is left from an earlier window, for a shard of the other kind.

* `Decoder.logs_after`: the log of a receiver is a log of the stream.
* `Decoder.retune_measures`: **what a receiver learns, over any deliveries of a stream.**
* `Decoder.retune_shortened`: a run in which the loss of one shard makes it learn a wrong geometry.
-/

namespace PacketFec.Decoder

variable {g : Geometry} {base : ℕ} {bodies : ℕ → List Bytes} {history : List WireShard} {w : WireShard}
  {d : Decoder} {shared : Shared}

/-- What a shard does to the log and to the geometry. -/
theorem decode_eq_ok (h : d.Sound) {packet : Bytes} {shard : Shard} (hparse : Shard.parse packet = .ok shard)
    {t : Decoded} (hdec : d.decode shared packet = .ok t) :
    t.decoder.Sound ∧ t.decoder.log = (d.noted shard).log ∧
      (t.decoder.geometry ≠ d.geometry → (d.noted shard).detected? = some t.decoder.geometry) := by
  obtain ⟨-, hbytes, hlong⟩ := parse_eq_ok hparse
  have hnoted := h.noted shard
  rw [decode_eq h.valid hparse] at hdec
  split at hdec
  · rcases receive_cases hnoted shared (by rwa [hbytes]) with ⟨hrec, -⟩ | ⟨-, b, t', hrec, hs⟩
    · rw [hrec] at hdec
      cases hdec
      exact ⟨hnoted, rfl, fun hne => absurd rfl hne⟩
    · rw [hrec] at hdec
      cases hdec
      have hfilled := sound_filled hnoted hs.vacant (b := b) (by rw [hs.bytes_eq, hbytes]; exact hlong)
      rw [hs.decoder_eq]
      exact ⟨hnoted.settled _ hfilled, rfl, fun hne => absurd rfl hne⟩
  · rcases retune_eq_ok hdec with heq | ⟨g, hdet, heq⟩
    · rw [heq]
      exact ⟨hnoted, rfl, fun hne => absurd rfl hne⟩
    · rw [heq]
      exact ⟨⟨valid_of_detected hdet, nofun⟩, rfl, fun _ => hdet⟩

/-- Taking note of a shard of the stream. -/
theorem logs_noted (hg : g.Valid) (hbase : g.total ∣ base) (h : d.log.Logs g) (hw : Genuine g base bodies w) :
    (d.noted (w.shard g base)).log.Logs g := by
  apply PulseLog.logs_sample h
  have hplace : (g.seqidAt base (g.place w.group w.place)).toNat % g.total = w.place := by
    rw [Geometry.seqidAt_mod hg hbase, Geometry.place_mod hw.place_lt]
  refine ⟨?_, ?_⟩
  · show (g.seqidAt base (g.place w.group w.place)).toNat < g.ceiling
    rw [Geometry.toNat_seqidAt hg]
    exact Nat.mod_lt _ (Geometry.ceiling_pos hg)
  · show (if w.place < g.data then Kind.data else Kind.parity).isData =
      decide ((g.seqidAt base (g.place w.group w.place)).toNat % g.total < g.data)
    rw [hplace]
    split <;> simp [Kind.isData, *]

/-- The log of a receiver is a log of the stream that it is given. -/
theorem logs_after (hg : g.Valid) (hbase : g.total ∣ base) (h : d.Sound) (hlog : d.log.Logs g)
    (hgen : ∀ v ∈ history, Genuine g base bodies v) {d' : Decoder} {shared' : Shared}
    (hafter : d.after shared (history.map (·.bytes)) = .ok (d', shared')) : d'.Sound ∧ d'.log.Logs g := by
  -- the log does not depend on what the receiver makes of a shard, nor on the order of the shards
  induction history generalizing d shared with
  | nil =>
    cases hafter
    exact ⟨h, hlog⟩
  | cons v rest ih =>
    have hv := hgen v (List.mem_cons_self ..)
    rw [List.map_cons, after] at hafter
    obtain ⟨t, hdec, hrest⟩ := Checked.bind_eq_ok.1 hafter
    obtain ⟨h1, h2, -⟩ := decode_eq_ok h hv.parse_eq hdec
    refine ih h1 ?_ (fun u hu => hgen u (List.mem_cons_of_mem _ hu)) hrest
    rw [h2]
    exact logs_noted hg hbase hlog hv

/-- A receiver whose geometry has been measured in a stream of geometry `g`: the data run from the left edge
`left` on, and the parity run from the left edge `right` on, as its log shows them. It is the geometry of the
stream exactly where these are the first data shard and the first parity shard of a group. -/
structure Measures (d : Decoder) (g : Geometry) (left right : Pulse) : Prop where
  data_edge : d.log.leftEdge? true = some left
  parity_edge : d.log.leftEdge? false = some right
  data_place : left.seq.toNat % g.total < g.data
  parity_place : g.data ≤ right.seq.toNat % g.total
  geometry_eq : d.geometry = ⟨g.data - left.seq.toNat % g.total, g.total - right.seq.toNat % g.total⟩
  exact_iff : d.geometry = g ↔ left.seq.toNat % g.total = 0 ∧ right.seq.toNat % g.total = g.data

theorem measures_of_detected (hg : g.Valid) (hlog : d.log.Logs g) (hdet : d.detected? = some d.geometry) :
    ∃ left right, d.Measures g left right := by
  have htotal : g.total = g.data + g.parity := rfl
  unfold detected? at hdet
  split at hdet
  · rename_i data parity hdata hparity
    split at hdet
    · obtain ⟨left, h1, h2, h3, h4⟩ := PulseLog.place_of_findPeriod hg hlog hdata
      obtain ⟨right, h5, h6, h7, h8⟩ := PulseLog.place_of_findPeriod hg hlog hparity
      rw [PulseLog.runEnd, if_pos rfl] at h4
      rw [PulseLog.runEnd, if_neg (by decide)] at h8
      have hleft := h3.bit_eq
      have hright := h7.bit_eq
      rw [h2] at hleft
      rw [h6] at hright
      have hd : left.seq.toNat % g.total < g.data := of_decide_eq_true hleft.symm
      have hp : g.data ≤ right.seq.toNat % g.total := Nat.not_lt.1 (of_decide_eq_false hright.symm)
      have hgeo : d.geometry = ⟨g.data - left.seq.toNat % g.total, g.total - right.seq.toNat % g.total⟩ := by
        rw [← Option.some.inj hdet, Geometry.mk.injEq]
        exact ⟨by omega, by omega⟩
      refine ⟨left, right, h1, h5, hd, hp, hgeo, ?_⟩
      rw [hgeo]
      constructor
      · intro heq
        have hdata := congrArg Geometry.data heq
        have hparity := congrArg Geometry.parity heq
        simp only at hdata hparity
        exact ⟨by omega, by omega⟩
      · rintro ⟨hl, hr⟩
        rw [hl, hr, htotal, Nat.sub_zero, Nat.add_sub_cancel_left]
    · cases hdet
  · cases hdet

/-- **What a receiver learns from a stream.** Take a sender of any geometry and first sequence id, any calls,
and any deliveries of the shards that they put on the wire, to a new receiver of any geometry. Whenever a
delivery changes the geometry of the receiver, the new one is measured in the stream, and it is that of the
sender exactly where both runs are measured from their first shard. -/
theorem retune_measures {offset : ℕ} {pool pool' : BufferPool} {e e₀ : Encoder} {seqid : UInt32}
    {counters : Counters} {calls : List Call} {g₀ : Geometry} {d₀ : Decoder} {shared' : Shared} {t : Decoded}
    (hcreate : Encoder.create g offset pool = .ok (e, pool')) (hstart : e.startAt seqid = .ok e₀)
    (hnew : create g₀ = .ok d₀)
    (hdel : ∀ v ∈ history ++ [w], v ∈ Encoder.wire g offset (e₀.sent counters calls))
    (hafter : d₀.after shared (history.map (·.bytes)) = .ok (d, shared'))
    (hdec : d.decode shared' w.bytes = .ok t) (hchange : t.decoder.geometry ≠ d.geometry) :
    ∃ left right, t.decoder.Measures g left right := by
  obtain ⟨e₁, hstart', hfollows, -⟩ := Encoder.follows_nil hcreate seqid
  obtain rfl : e₁ = e₀ := Except.ok.inj (hstart'.symm.trans hstart)
  have hg := hfollows.tracks.valid
  have hbase := hfollows.tracks.aligned
  have hgen := fun v hv => Encoder.genuine_of_mem_wire hfollows counters calls (hdel v hv)
  obtain ⟨hg₀, rfl⟩ := create_eq_ok_iff.1 hnew
  have hsound : Sound ⟨g₀, [], none, .empty, 0⟩ := ⟨hg₀, nofun⟩
  obtain ⟨h1, h2⟩ := logs_after hg hbase hsound (PulseLog.logs_replicate rfl _ _)
    (fun v hv => hgen v (List.mem_append_left _ hv)) hafter
  have hw := hgen w (by simp)
  obtain ⟨-, hlog, hdet⟩ := decode_eq_ok h1 hw.parse_eq hdec
  have hnoted := logs_noted hg hbase h2 hw
  rw [← hlog] at hnoted
  apply measures_of_detected hg hnoted
  rw [← hdet hchange, detected?, detected?, hlog]

set_option maxRecDepth 20000 in
/-- Groups of one packet and one parity shard, of which the first packet is lost. -/
theorem retune_measures_of_lost_packet : ∃ e pool' e₀ d₀ d shared' t left right,
    Encoder.create ⟨1, 1⟩ 0 (.create 16 8) = .ok (e, pool') ∧ e.startAt 0 = .ok e₀ ∧ create ⟨2, 2⟩ = .ok d₀ ∧
      d₀.after ⟨.create 16 8, .zero⟩ [[2, 0, 0, 0, 241, 0, 3, 0, 7], [3, 0, 0, 0, 242, 0, 3, 0, 7],
        [4, 0, 0, 0, 241, 0, 3, 0, 7]] = .ok (d, shared') ∧
      d.decode shared' [5, 0, 0, 0, 242, 0, 3, 0, 7] = .ok t ∧ t.decoder.geometry ≠ d.geometry ∧
      t.decoder.Measures ⟨1, 1⟩ left right := by
  obtain ⟨e, pool', e₀, d₀, d, shared', t, hcreate, hstart, hdel, hnew, hafter, hdec, hchange⟩ :
      ∃ e pool' e₀ d₀ d shared' t,
        Encoder.create ⟨1, 1⟩ 0 (.create 16 8) = .ok (e, pool') ∧ e.startAt 0 = .ok e₀ ∧
        (∀ v ∈ ([⟨1, 0, [2, 0, 0, 0, 241, 0, 3, 0, 7]⟩, ⟨1, 1, [3, 0, 0, 0, 242, 0, 3, 0, 7]⟩,
            ⟨2, 0, [4, 0, 0, 0, 241, 0, 3, 0, 7]⟩] : List WireShard) ++ [⟨2, 1, [5, 0, 0, 0, 242, 0, 3, 0, 7]⟩],
          v ∈ Encoder.wire ⟨1, 1⟩ 0
            (e₀.sent .zero [⟨.replicate 9 7, 5, 0⟩, ⟨.replicate 9 7, 5, 1⟩, ⟨.replicate 9 7, 5, 2⟩])) ∧
        create ⟨2, 2⟩ = .ok d₀ ∧ d₀.after ⟨.create 16 8, .zero⟩ [[2, 0, 0, 0, 241, 0, 3, 0, 7],
          [3, 0, 0, 0, 242, 0, 3, 0, 7], [4, 0, 0, 0, 241, 0, 3, 0, 7]] = .ok (d, shared') ∧
        d.decode shared' [5, 0, 0, 0, 242, 0, 3, 0, 7] = .ok t ∧ t.decoder.geometry ≠ d.geometry :=
    ⟨_, _, _, _, _, _, _, rfl, rfl, by decide +kernel, rfl, rfl, rfl, by decide +kernel⟩
  obtain ⟨left, right, hmeasures⟩ := retune_measures hcreate hstart hnew hdel hafter hdec hchange
  exact ⟨e, pool', e₀, d₀, d, shared', t, left, right, hcreate, hstart, hnew, hafter, hdec, hchange, hmeasures⟩

set_option maxRecDepth 20000 in
/-- A sender of groups of two packets and one parity shard, whose first shard is lost. A receiver of another
geometry takes the second packet for the first one of its group, and learns that groups have one packet. -/
theorem retune_shortened : ∃ e pool' e₀ d₀ d shared' t,
    Encoder.create ⟨2, 1⟩ 0 (.create 16 8) = .ok (e, pool') ∧ e.startAt 0 = .ok e₀ ∧
      ([⟨0, 1, [1, 0, 0, 0, 241, 0, 3, 0, 7]⟩, ⟨0, 2, [2, 0, 0, 0, 242, 0, 3, 0, 7]⟩,
        ⟨1, 0, [3, 0, 0, 0, 241, 0, 3, 0, 7]⟩] : List WireShard).Sublist (Encoder.wire ⟨2, 1⟩ 0
          (e₀.sent .zero [⟨.replicate 9 7, 5, 0⟩, ⟨.replicate 9 7, 5, 1⟩, ⟨.replicate 9 7, 5, 2⟩])) ∧
      create ⟨3, 1⟩ = .ok d₀ ∧ d₀.after ⟨.create 16 8, .zero⟩
        [[1, 0, 0, 0, 241, 0, 3, 0, 7], [2, 0, 0, 0, 242, 0, 3, 0, 7]] = .ok (d, shared') ∧
      d.decode shared' [3, 0, 0, 0, 241, 0, 3, 0, 7] = .ok t ∧
      d.geometry = ⟨3, 1⟩ ∧ t.decoder.geometry = ⟨1, 1⟩ :=
  ⟨_, _, _, _, _, _, _, rfl, rfl, by decide +kernel, rfl, rfl, rfl, by decide +kernel, by decide +kernel⟩

end PacketFec.Decoder
