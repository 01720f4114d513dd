import Mathlib
import PacketFec.Proofs.Refusals

/-!
# A payload survives its framing

The caller leaves eight bytes free in front of a payload, and the sender writes a header and a length prefix there.
The prefix counts itself and has two bytes, so a payload of more than 65533 bytes cannot be framed. That is refused
before anything is written, so whatever the sender takes is a shard that a reader gets the payload back from, also
where a receiver has rebuilt it with zeros, or anything else, behind the payload.

* `Encoder.Carries`: what a packet is when its payload has been framed.
* `Encoder.packet_of_encode`: what sealing leaves of the bytes of a packet.
* `Encoder.Reached.exists_encode_iff`: the lengths of the payloads that are taken.
* `Encoder.framing`: **every payload that is taken reads back, and what a prefix can be read as.**
-/

namespace PacketFec.Encoder

variable {g : Geometry} {offset size : ℕ} {e : Encoder} {counters : Counters} {packet outer reserved payload : Bytes}
  {staleness now : ℕ} {s : Sealed}

/-- A packet with a payload framed behind some outer bytes: a data shard with a sequence id stands there. -/
structure Carries (packet outer payload : Bytes) (seqid : UInt32) : Prop where
  /-- The outer bytes and the payload stand where the caller has put them, around eight others. -/
  kept : ∃ framing : Bytes, framing.length = framingSize ∧ packet = outer ++ framing ++ payload
  /-- Behind the outer bytes a shard is read, and off its body the payload, whatever stands behind it. -/
  parsed : ∃ shard, Shard.parse (packet.drop outer.length) = .ok shard ∧ shard.seqid = seqid ∧ shard.kind = .data ∧
    ∀ rest, Frame.payload? (shard.body ++ rest) = some payload

/-- A header of data and a frame carry the payload, if the prefix can say its length. -/
theorem carries_of_framed (outer : Bytes) (seqid : UInt32)
    (hsaid : payload.length + sizePrefixLength < sizePrefixLimit) :
    Carries (outer ++ Header.toBytes ⟨seqid, .data⟩ ++ Frame.encode payload) outer payload seqid := by
  set header : Header := ⟨seqid, .data⟩
  constructor
  · refine ⟨header.toBytes ++ Bytes.little sizePrefixLength (payload.length + sizePrefixLength), ?_, ?_⟩
    · rw [List.length_append, Header.length_toBytes, Bytes.length_little]
      rfl
    · simp only [Frame.encode, List.append_assoc]
  · refine ⟨⟨header, header.toBytes ++ Frame.encode payload⟩, ?_, rfl, rfl, ?_⟩
    · rw [List.append_assoc, List.drop_left, Shard.parse, Header.read_toBytes_append]
      rfl
    · intro rest
      have hbody : Shard.body ⟨header, header.toBytes ++ Frame.encode payload⟩ = Frame.encode payload :=
        List.drop_left' (Header.length_toBytes header)
      rw [hbody]
      exact Frame.payload?_encode_append hsaid rest

/-- **What sealing leaves of a packet.** A packet that is sealed has passed the first check, and its header and its
length prefix are all that is new. -/
theorem packet_of_encode (h : e.encode counters packet staleness now = .ok s) :
    e.screen packet.length = .ok () ∧ s.packet = packet.take e.offset ++ Header.toBytes ⟨e.next, .data⟩ ++
      Frame.encode (packet.drop (e.bodyStart + sizePrefixLength)) := by
  unfold encode at h
  obtain ⟨⟨⟩, hscreen, h⟩ := Checked.bind_eq_ok.1 h
  obtain ⟨e₁, -, h⟩ := Checked.bind_eq_ok.1 h
  obtain ⟨stored, -, h⟩ := Checked.bind_eq_ok.1 h
  simp only at h
  split at h
  all_goals
    obtain ⟨done, -, h⟩ := Checked.bind_eq_ok.1 h
    obtain rfl := Except.ok.inj h
    exact ⟨hscreen, rfl⟩

/-- The payloads that fit: into the buffers of the pool, behind the framing, and into what the prefix can say. -/
theorem takes_iff (houter : outer.length = offset) (hreserved : reserved.length = framingSize) :
    Takes offset size (outer ++ reserved ++ payload) ↔
      payload.length ≤ 65533 ∧ offset + framingSize + payload.length ≤ size := by
  have hframing : framingSize = headerSize + 2 := rfl
  have hlimit : sizePrefixLimit = 65536 := rfl
  have hlen : (outer ++ reserved ++ payload).length = offset + framingSize + payload.length := by
    rw [List.length_append, List.length_append, houter, hreserved]
  constructor
  · rintro ⟨-, hslot, hsaid⟩
    exact ⟨by omega, by omega⟩
  · rintro ⟨hsaid, hslot⟩
    exact ⟨by omega, by omega, by omega⟩

/-- A sender seals exactly the packets that it takes. -/
theorem Poised.exists_encode_iff (h : e.Poised g offset size) :
    (∃ s, e.encode counters packet staleness now = .ok s) ↔ Takes offset size packet := by
  constructor
  · rintro ⟨s, hs⟩
    by_contra hnot
    rcases h.sealPacket_cases counters packet staleness now with ⟨r, -, hrefused, -⟩ | ⟨htakes, -⟩
    · have hscreen := (packet_of_encode hs).1
      simp [hscreen] at hrefused
    · exact hnot htakes
  · intro htakes
    rcases h.sealPacket_cases counters packet staleness now with ⟨r, hnot, -⟩ | ⟨-, s, hs, -⟩
    · exact absurd htakes hnot
    · exact ⟨s, hs⟩

/-- **Sealing in place is `Encoder.encode`**, where that gives a result. -/
theorem Poised.sealPacket_of_encode (h : e.Poised g offset size)
    (hs : e.encode counters packet staleness now = .ok s) :
    sealPacket staleness now ⟨e, counters, packet⟩ = .ok s.parity ⟨s.encoder, s.counters, s.packet⟩ := by
  rcases h.sealPacket_cases counters packet staleness now with ⟨r, hnot, -⟩ | ⟨-, s', hs', hrun, -⟩
  · exact absurd (h.exists_encode_iff.1 ⟨s, hs⟩) hnot
  · obtain rfl := Except.ok.inj (hs.symm.trans hs')
    exact hrun

/-- **A packet that is sealed carries its payload**, under the sequence id that was next. -/
theorem Poised.carries (h : e.Poised g offset size) (houter : outer.length = offset)
    (hreserved : reserved.length = framingSize)
    (hs : e.encode counters (outer ++ reserved ++ payload) staleness now = .ok s) :
    Carries s.packet outer payload e.next := by
  have hlimit : sizePrefixLimit = 65536 := rfl
  have htwo : sizePrefixLength = 2 := rfl
  obtain ⟨bodies, hholds, -⟩ := h.holds
  obtain ⟨hsaid, -⟩ := (takes_iff houter hreserved).1 (h.exists_encode_iff.1 ⟨s, hs⟩)
  have hstart : e.bodyStart + sizePrefixLength = (outer ++ reserved).length := by
    rw [bodyStart, hholds.offset_eq, List.length_append, houter, hreserved, Nat.add_assoc]
    rfl
  have houter' : (outer ++ reserved ++ payload).take offset = outer := by
    rw [List.append_assoc, List.take_left' houter]
  obtain ⟨-, hpacket⟩ := packet_of_encode hs
  rw [hstart, List.drop_left, hholds.offset_eq, houter'] at hpacket
  rw [hpacket]
  exact carries_of_framed outer e.next (by omega)

/-! ### Both directions -/

/-- The frames of payloads, said with the prefix as a word of 16 bits. -/
theorem payload?_eq_some_iff_word {body : Bytes} : Frame.payload? body = some payload ↔
    ∃ n : UInt16, n.toNat = payload.length + 2 ∧ Bytes.little 2 n.toNat ++ payload <+: body := by
  rw [Frame.payload?_eq_some_iff]
  constructor
  · rintro ⟨hsaid, hbody⟩
    have hword : (UInt16.ofNat (payload.length + 2)).toNat = payload.length + 2 := UInt16.toNat_ofNat_of_lt' hsaid
    refine ⟨UInt16.ofNat (payload.length + 2), hword, ?_⟩
    rw [hword]
    exact hbody
  · rintro ⟨n, hn, hbody⟩
    have hlt : n.toNat < 65536 := n.toNat_lt
    rw [hn] at hlt hbody
    exact ⟨hlt, hbody⟩

/-- **Framing and reading back.** A sender that any use has led to takes exactly the payloads of up to 65533 bytes that
fit into its buffers, whatever stands in the outer framing and in the reserved bytes. The packet that it leaves carries
the payload: nothing but the reserved bytes has changed, and a data shard with the sender's next id stands there, off
which the payload is read whatever is appended to its body. In the other direction, a body is read as a payload exactly
where it starts with a word of 16 bits that counts itself and the payload, and then the payload. -/
theorem framing :
    (∀ (g : Geometry) (offset size : ℕ) (e : Encoder), Reached g offset size e → ∀ outer reserved payload : Bytes,
      outer.length = offset → reserved.length = framingSize → ∀ (counters : Counters) (staleness now : ℕ),
      ((∃ s, e.encode counters (outer ++ reserved ++ payload) staleness now = .ok s) ↔
        payload.length ≤ 65533 ∧ offset + framingSize + payload.length ≤ size) ∧
      ∀ s, e.encode counters (outer ++ reserved ++ payload) staleness now = .ok s →
        sealPacket staleness now ⟨e, counters, outer ++ reserved ++ payload⟩ =
          .ok s.parity ⟨s.encoder, s.counters, s.packet⟩ ∧
        Carries s.packet outer payload e.next) ∧
    ∀ body payload : Bytes, Frame.payload? body = some payload ↔
      ∃ n : UInt16, n.toNat = payload.length + 2 ∧ Bytes.little 2 n.toNat ++ payload <+: body := by
  refine ⟨?_, fun body payload => payload?_eq_some_iff_word⟩
  intro g offset size e hreached outer reserved payload houter hreserved counters staleness now
  have hpoised := hreached.poised
  refine ⟨hpoised.exists_encode_iff.trans (takes_iff houter hreserved), ?_⟩
  intro s hs
  exact ⟨hpoised.sealPacket_of_encode hs, hpoised.carries houter hreserved hs⟩

/-- A sender with three bytes of outer framing frames two bytes into a buffer of 16, and one that has been started
elsewhere frames none. -/
theorem framing_of_short_payloads : ∃ e pool' e' s s', create ⟨2, 1⟩ 3 (.create 16 8) = .ok (e, pool') ∧
    e.startAt 100 = .ok e' ∧ Reached ⟨2, 1⟩ 3 16 e ∧ Reached ⟨2, 1⟩ 3 16 e' ∧
    e.encode .zero ([1, 2, 3] ++ .replicate 8 7 ++ [4, 5]) 5 0 = .ok s ∧ Carries s.packet [1, 2, 3] [4, 5] 0 ∧
    e'.encode .zero ([1, 2, 3] ++ .replicate 8 0 ++ []) 5 0 = .ok s' ∧ Carries s'.packet [1, 2, 3] [] 99 := by
  obtain ⟨e, pool', e', hcreate, hstart, hnext, hnext'⟩ : ∃ e pool' e',
      create ⟨2, 1⟩ 3 (.create 16 8) = .ok (e, pool') ∧ e.startAt 100 = .ok e' ∧ e.next = 0 ∧ e'.next = 99 :=
    ⟨_, _, _, rfl, rfl, by decide +kernel, by decide +kernel⟩
  have hreached : Reached ⟨2, 1⟩ 3 16 e := .new hcreate rfl
  have hreached' : Reached ⟨2, 1⟩ 3 16 e' := .started hreached hstart
  have hframing := framing.1 ⟨2, 1⟩ 3 16
  obtain ⟨htaken, hcarries⟩ := hframing e hreached [1, 2, 3] (.replicate 8 7) [4, 5] rfl rfl .zero 5 0
  obtain ⟨htaken', hcarries'⟩ := hframing e' hreached' [1, 2, 3] (.replicate 8 0) [] rfl rfl .zero 5 0
  obtain ⟨s, hs⟩ := htaken.2 (by decide)
  obtain ⟨s', hs'⟩ := htaken'.2 (by decide)
  exact ⟨e, pool', e', s, s', hcreate, hstart, hreached, hreached', hs, hnext ▸ (hcarries s hs).2, hs',
    hnext' ▸ (hcarries' s' hs').2⟩

end PacketFec.Encoder
