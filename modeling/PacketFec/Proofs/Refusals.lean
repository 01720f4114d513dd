import Mathlib
import PacketFec.Proofs.InPlace

/-!
# A refused packet leaves no trace

A sender is used by calls that change it in place, by a caller who writes into the parity slices, and by one who moves
its numbering, even in the middle of a group. Whatever they do, the sender is poised for the next packet: all checks
behind the first one then succeed. So a call fails at its first check or not at all, with an error that follows from
three lengths alone, and behind a failed call nothing has changed.

* `Encoder.Reached`: the senders that all this leads to, behind failed calls too.
* `Reached.poised`: **every one of them is poised.**
* `Poised.sealPacket_cases`: what a call can do.
* `Encoder.replies`, `Poised.filter_replies`: a run, **in which nobody can see the refused packets**.
* `Encoder.sealing_is_atomic`: **the errors of a call, and that a failed one might as well not have been made.**
-/

namespace PacketFec.Encoder

variable {g : Geometry} {offset size : ℕ} {e e' : Encoder} {counters : Counters} {packet : Bytes} {staleness now : ℕ}
  {parity : List Bytes} {w w' : Workbench} {r : Error} {turns : List Turn}

/-! ### The senders that calls lead to -/

/-- The senders of a geometry behind an offset, with buffers of a size: new ones, and those that any use leads to. A
call that fails leads to whatever sender it leaves. -/
inductive Reached (g : Geometry) (offset size : ℕ) : Encoder → Prop
  | new {pool pool' : BufferPool} {e : Encoder} (h : create g offset pool = .ok (e, pool'))
      (hsize : pool.bufferSize = size) : Reached g offset size e
  /-- The numbering is moved. -/
  | started {e e' : Encoder} {seqid : UInt32} (he : Reached g offset size e) (h : e.startAt seqid = .ok e') :
      Reached g offset size e'
  /-- A packet is sealed. -/
  | sealed {w w' : Workbench} {staleness now : ℕ} {parity : List Bytes} (he : Reached g offset size w.encoder)
      (h : sealPacket staleness now w = .ok parity w') : Reached g offset size w'.encoder
  /-- A packet is sealed, and the caller writes into the parity slices. -/
  | written {w w' : Workbench} {staleness now : ℕ} {parity : List Bytes} {marks : ℕ → Bytes}
      (he : Reached g offset size w.encoder) (h : sealPacket staleness now w = .ok parity w') :
      Reached g offset size (w'.encoder.scribble parity marks)
  /-- A call fails. -/
  | failed {w w' : Workbench} {staleness now : ℕ} {r : Error} (he : Reached g offset size w.encoder)
      (h : sealPacket staleness now w = .error r w') : Reached g offset size w'.encoder

theorem Poised.startAt {seqid : UInt32} (h : e.Poised g offset size) (hstart : e.startAt seqid = .ok e') :
    e'.Poised g offset size := by
  obtain ⟨bodies, hholds, hopen⟩ := h.holds
  have hpos := Geometry.ceiling_pos hholds.valid
  unfold Encoder.startAt at hstart
  obtain ⟨wrapped, hwrapped, hstart⟩ := Checked.bind_eq_ok.1 hstart
  obtain ⟨stride, -, hstart⟩ := Checked.bind_eq_ok.1 hstart
  obtain ⟨position, -, hstart⟩ := Checked.bind_eq_ok.1 hstart
  cases hstart
  rw [hholds.ceiling_eq, Checked.mod_eq hpos] at hwrapped
  cases hwrapped
  refine ⟨⟨bodies, { hholds with }, hopen⟩, ?_⟩
  -- the start of a group below the ceiling
  have hle : (UInt32.ofNat (seqid.toNat % g.ceiling - position)).toNat ≤ seqid.toNat % g.ceiling :=
    (Nat.mod_le _ _).trans (Nat.sub_le _ _)
  exact lt_of_le_of_lt hle (Nat.mod_lt _ hpos)

theorem Poised.scribble (h : e.Poised g offset size) (hshort : ∀ slice ∈ parity, slice.length ≤ size)
    (marks : ℕ → Bytes) : (e.scribble parity marks).Poised g offset size := by
  obtain ⟨bodies, hholds, hopen⟩ := h.holds
  exact ⟨⟨bodies, hholds.scribble hopen.le hshort marks, hopen⟩, h.below⟩

/-- **What a call can do.** It refuses the packet and leaves everything as it was, or it seals it. -/
theorem Poised.sealPacket_cases (h : e.Poised g offset size) (counters : Counters) (packet : Bytes)
    (staleness now : ℕ) :
    (∃ r, ¬ Takes offset size packet ∧ e.screen packet.length = .error r ∧ ¬ r.IsFault ∧
        sealPacket staleness now ⟨e, counters, packet⟩ = .error r ⟨e, counters, packet⟩) ∨
      Takes offset size packet ∧ ∃ s, e.encode counters packet staleness now = .ok s ∧
        sealPacket staleness now ⟨e, counters, packet⟩ = .ok s.parity ⟨s.encoder, s.counters, s.packet⟩ ∧
        s.encoder.Poised g offset size ∧ s.counters = counters ∧ ∀ slice ∈ s.parity, slice.length ≤ size := by
  obtain ⟨bodies, hholds, -⟩ := h.holds
  rcases screen_cases hholds.toFramed packet with ⟨hscreen, htakes⟩ | ⟨⟨r, hscreen, hfault⟩, hnot⟩
  · exact .inr ⟨htakes, h.sealPacket_sealed hscreen htakes counters staleness now⟩
  · exact .inl ⟨r, hnot, hscreen, hfault, sealPacket_refused hscreen staleness now⟩

/-- **A call that fails** has refused the packet, and has changed nothing. -/
theorem Poised.sealPacket_error (h : w.encoder.Poised g offset size)
    (hrun : sealPacket staleness now w = .error r w') :
    w' = w ∧ w.encoder.screen w.packet.length = .error r ∧ ¬ r.IsFault := by
  rcases h.sealPacket_cases w.counters w.packet staleness now with
    ⟨r', -, hscreen, hfault, hrefused⟩ | ⟨-, s, -, hsealed, -⟩
  · cases hrun.symm.trans hrefused
    exact ⟨rfl, hscreen, hfault⟩
  · cases hrun.symm.trans hsealed

/-- A call that seals its packet leaves the sender poised for the next one, and its slices are no longer than the
buffers. -/
theorem Poised.sealPacket_ok (h : w.encoder.Poised g offset size)
    (hrun : sealPacket staleness now w = .ok parity w') :
    w'.encoder.Poised g offset size ∧ ∀ slice ∈ parity, slice.length ≤ size := by
  rcases h.sealPacket_cases w.counters w.packet staleness now with
    ⟨r, -, -, -, hrefused⟩ | ⟨-, s, -, hsealed, hnext, -, hshort⟩
  · cases hrun.symm.trans hrefused
  · cases hrun.symm.trans hsealed
    exact ⟨hnext, hshort⟩

/-- What the first check looks at: the length of the packet, against three others. -/
theorem Poised.screen_eq (h : e.Poised g offset size) (n : ℕ) :
    e.screen n = if n < offset + 8 then .error (.packetTooShort (offset + 8) n)
      else if n > size then .error (.packetTooLarge n size)
      else if n > offset + 6 + 65535 then .error (.packetTooLarge n (offset + 6 + 65535)) else .ok () := by
  obtain ⟨bodies, hholds, -⟩ := h.holds
  rw [screen, bodyStart, hholds.offset_eq, hholds.slotSize_eq]
  rfl

/-- **Every sender is poised.** -/
theorem Reached.poised (h : Reached g offset size e) : e.Poised g offset size := by
  induction h with
  | new h hsize =>
    have htracks := (tracks_create h).1
    rw [hsize] at htracks
    exact htracks.toHolds.poised htracks.valid.data_pos htracks.next_eq
  | started he h ih => exact ih.startAt h
  | sealed he h ih => exact (ih.sealPacket_ok h).1
  | written he h ih =>
    obtain ⟨hnext, hshort⟩ := ih.sealPacket_ok h
    exact hnext.scribble hshort _
  | failed he h ih =>
    obtain ⟨rfl, -, -⟩ := ih.sealPacket_error h
    exact ih

/-! ### Runs -/

/-- What a call shows: its result, what it leaves of the packet, and the counters. -/
structure Reply where
  /-- The parity slices, or the error. -/
  result : Except Error (List Bytes)
  /-- The packet behind the call. -/
  packet : Bytes
  /-- The counters behind the call. -/
  counters : Counters

/-- The replies to some calls, each of which meets the sender and the counters that the one before has left. The caller
writes into the parity slices of each reply. -/
def replies (e : Encoder) (counters : Counters) : List Turn → List Reply
  | [] => []
  | t :: rest =>
    match sealPacket t.call.staleness t.call.now ⟨e, counters, t.call.packet⟩ with
    | .ok parity w =>
      ⟨.ok parity, w.packet, w.counters⟩ :: (w.encoder.scribble parity t.marks).replies w.counters rest
    | .error r w => ⟨.error r, w.packet, w.counters⟩ :: w.encoder.replies w.counters rest

/-- A refused packet is answered, and behind it the run goes on as without it. -/
theorem replies_refused {t : Turn} (h : sealPacket t.call.staleness t.call.now ⟨e, counters, t.call.packet⟩ =
    .error r ⟨e, counters, t.call.packet⟩) (turns : List Turn) :
    e.replies counters (t :: turns) = ⟨.error r, t.call.packet, counters⟩ :: e.replies counters turns := by
  rw [replies, h]

/-- **Nobody can see the refused packets.** The replies to the others are those of a run without them. -/
theorem Poised.filter_replies (h : e.Poised g offset size) (counters : Counters) (turns : List Turn) :
    (e.replies counters turns).filter (·.result.isOk) =
      e.replies counters (turns.filter fun t => decide (Takes offset size t.call.packet)) := by
  induction turns generalizing e counters with
  | nil => rfl
  | cons t rest ih =>
    rcases h.sealPacket_cases counters t.call.packet t.call.staleness t.call.now with
      ⟨r, hnot, -, -, hrun⟩ | ⟨htakes, s, -, hrun, hnext, -, hshort⟩
    · -- the refused packet is on neither side, and the sender goes on from where it was
      rw [replies_refused hrun, List.filter_cons_of_neg (by simp [Except.isOk, Except.toBool]),
        List.filter_cons_of_neg (by simpa using hnot), ih h]
    · rw [List.filter_cons_of_pos (by simpa using htakes), replies, replies, hrun]
      simp only
      rw [List.filter_cons_of_pos (by simp [Except.isOk, Except.toBool]), ih (hnext.scribble hshort t.marks)]

/-! ### Every sender and every packet -/

/-- What a sender does with any packet. -/
structure Atomic (e : Encoder) (offset size : ℕ) : Prop where
  /-- A packet without room for its framing is too short. -/
  short : ∀ counters packet staleness now, packet.length < offset + 8 →
    sealPacket staleness now ⟨e, counters, packet⟩ =
      .error (.packetTooShort (offset + 8) packet.length) ⟨e, counters, packet⟩
  /-- Another one is too long where it exceeds the buffers of the pool. -/
  long : ∀ counters packet staleness now, offset + 8 ≤ packet.length → size < packet.length →
    sealPacket staleness now ⟨e, counters, packet⟩ =
      .error (.packetTooLarge packet.length size) ⟨e, counters, packet⟩
  /-- Otherwise it is too long where its prefix cannot say its length. -/
  unsayable : ∀ counters packet staleness now, offset + 8 ≤ packet.length → packet.length ≤ size →
    offset + 6 + 65535 < packet.length → sealPacket staleness now ⟨e, counters, packet⟩ =
      .error (.packetTooLarge packet.length (offset + 6 + 65535)) ⟨e, counters, packet⟩
  /-- Every other packet is sealed, and all is left as `Encoder.encode` has it. -/
  taken : ∀ counters packet staleness now, offset + 8 ≤ packet.length → packet.length ≤ size →
    packet.length ≤ offset + 6 + 65535 → ∃ s, e.encode counters packet staleness now = .ok s ∧
      sealPacket staleness now ⟨e, counters, packet⟩ = .ok s.parity ⟨s.encoder, s.counters, s.packet⟩
  /-- An error is one of these, so it is no fault, and it is the error of `Encoder.encode`. -/
  failed : ∀ counters packet staleness now r w, sealPacket staleness now ⟨e, counters, packet⟩ = .error r w →
    w = ⟨e, counters, packet⟩ ∧ ¬ r.IsFault ∧ e.encode counters packet staleness now = .error r
  /-- Behind an error, the replies to all later calls are those without the failed one. -/
  later : ∀ counters t r w, sealPacket t.call.staleness t.call.now ⟨e, counters, t.call.packet⟩ = .error r w →
    ∀ turns, e.replies counters (t :: turns) = ⟨.error r, t.call.packet, counters⟩ :: e.replies counters turns
  /-- The same holds of any number of failed calls in a run. -/
  runs : ∀ counters turns, (e.replies counters turns).filter (·.result.isOk) =
    e.replies counters (turns.filter fun t => decide (Takes offset size t.call.packet))

/-- **A call fails exactly where one of three lengths is wrong, and a failed call changes nothing**: neither the sender,
whatever it has been used for, nor the packet, nor the counters. -/
theorem sealing_is_atomic (h : Reached g offset size e) : e.Atomic offset size := by
  have hpoised := h.poised
  have hscreen := hpoised.screen_eq
  refine ⟨?_, ?_, ?_, ?_, ?_, ?_, hpoised.filter_replies⟩
  · intro counters packet staleness now hshort
    exact sealPacket_refused (by rw [hscreen, if_pos hshort]) staleness now
  · intro counters packet staleness now hlong hslot
    exact sealPacket_refused (by rw [hscreen, if_neg (by omega), if_pos hslot]) staleness now
  · intro counters packet staleness now hlong hslot hsaid
    exact sealPacket_refused (by rw [hscreen, if_neg (by omega), if_neg (by omega), if_pos hsaid]) staleness now
  · intro counters packet staleness now hlong hslot hsaid
    have htakes : Takes offset size packet := ⟨hlong, hslot, by
      show packet.length < offset + 6 + 65536
      omega⟩
    obtain ⟨s, hs, hrun, -⟩ := hpoised.sealPacket_sealed
      (by rw [hscreen, if_neg (by omega), if_neg (by omega), if_neg (by omega)]) htakes counters staleness now
    exact ⟨s, hs, hrun⟩
  · intro counters packet staleness now r w hrun
    obtain ⟨hw, hr, hfault⟩ := Poised.sealPacket_error (w := ⟨e, counters, packet⟩) hpoised hrun
    exact ⟨hw, hfault, encode_error hr⟩
  · intro counters t r w hrun turns
    obtain ⟨rfl, -, -⟩ := Poised.sealPacket_error (w := ⟨e, counters, t.call.packet⟩) hpoised hrun
    exact replies_refused hrun turns

set_option maxRecDepth 20000 in
/-- A sender in the middle of a group, that has then been started at another sequence id. -/
theorem sealing_is_atomic_in_open_group : ∃ e pool' parity w e', create ⟨2, 1⟩ 0 (.create 16 8) = .ok (e, pool') ∧
    sealPacket 5 0 ⟨e, .zero, .replicate 9 7⟩ = .ok parity w ∧ w.encoder.startAt 100 = .ok e' ∧
    Reached ⟨2, 1⟩ 0 16 e' ∧ e'.count = 1 ∧ e'.next = 99 ∧ e'.Atomic 0 16 := by
  obtain ⟨e, pool', parity, w, e', hcreate, hsealed, hstart, hopen⟩ : ∃ e pool' parity w e',
      create ⟨2, 1⟩ 0 (.create 16 8) = .ok (e, pool') ∧
      sealPacket 5 0 ⟨e, .zero, .replicate 9 7⟩ = .ok parity w ∧ w.encoder.startAt 100 = .ok e' ∧
      (e'.count = 1 ∧ e'.next = 99) :=
    ⟨_, _, _, _, _, rfl, rfl, rfl, by decide +kernel⟩
  have hreached : Reached ⟨2, 1⟩ 0 16 e' := .started (.sealed (.new hcreate rfl) hsealed) hstart
  exact ⟨e, pool', parity, w, e', hcreate, hsealed, hstart, hreached, hopen.1, hopen.2, sealing_is_atomic hreached⟩

end PacketFec.Encoder
