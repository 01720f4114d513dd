import Mathlib
import PacketFec.Proofs.Exactness
import PacketFec.Proofs.HostileInput
import PacketFec.Proofs.Rounding

/-!
# The books of a session balance

A session keeps its books whatever its receiver believes about the geometry of its sender. A receiver that is wrong
gives back bytes that nobody has lost, and may give back a lost payload more often than it was lost. Still every body
that it gives back is counted by it, and is then booked once: as verified, and then one of the lost payloads is crossed
out, or as corrupted. So nothing is verified that has not been lost before, and what is left at the end cannot be less
than nothing.

* `Decoder.decode_gives`: what any packet adds to what a receiver has given back.
* `Simulation.Books`: **the books while a packet is under way**, with the bodies that are still to be booked.
* `Books.deliver`, `Books.sendParity`, `Books.verify`: what each part of a step does to them.
* `Simulation.Between`, `Between.step`, `Between.steps`: a step, and a run of them.
* `Simulation.bookkeeping`: **every session balances, after every packet and at the end.**
-/

namespace PacketFec

/-- **What any packet adds to what a receiver has given back**: as many bodies as are counted, which are no more than
the shards of a group. -/
theorem Decoder.decode_gives {d : Decoder} (h : d.Sound) (hlt : d.retunes + 1 < wordLimit) (shared : Shared)
    (packet : Bytes) :
    ∃ t n, d.decode shared packet = .ok t ∧ t.decoder.Sound ∧ t.decoder.retunes ≤ d.retunes + 1 ∧
      shared.counters.Raised n t.shared.counters ∧ n .recovered = t.recovered.length ∧ t.recovered.length ≤ 256 := by
  obtain ⟨t, hdec, hsound, hretunes⟩ := decode_sound h hlt shared packet
  have hdata : d.geometry.data ≤ 256 := (Nat.le_add_right _ _).trans h.valid.total_le
  rcases decode_raised h hdec with ⟨hnone, -, hraised⟩ | ⟨shard, b, n, -, -, -, -, hadds, hraised⟩
  · exact ⟨t, 0, hdec, hsound, hretunes, hraised, by simp [hnone], by simp [hnone]⟩
  · obtain ⟨hcount, hle⟩ := hadds.recovered_eq
    exact ⟨t, n, hdec, hsound, hretunes, hraised, hcount, hle.trans hdata⟩

namespace Simulation

variable {σ : Type} {src : Source σ} {s : Simulation σ} {g : Geometry} {sent sent' back i n : ℕ}

/-! ### The books -/

/-- The books of a session that has sent some shards, while some bodies that have come back are still to be booked. -/
structure Books (s : Simulation σ) (sent back : ℕ) : Prop where
  sound : s.receiver.Sound
  retunes_le : s.receiver.retunes ≤ sent
  counted : ∃ n, Counters.zero.Raised n s.shared.counters ∧
    n .recovered = s.tally.verified + s.tally.corrupted + back
  booked_le : s.tally.verified + s.tally.corrupted + back ≤ 256 * sent
  lost_eq : s.lost.length + s.tally.verified = s.tally.dataLost
  lost_le : s.tally.dataLost ≤ sent
  parity_le : s.tally.parityLost ≤ s.tally.paritySent

/-- More shards may have been sent. -/
theorem Books.mono (h : s.Books sent back) (hle : sent ≤ sent') : s.Books sent' back :=
  { h with
    retunes_le := h.retunes_le.trans hle
    booked_le := h.booked_le.trans (Nat.mul_le_mul_left _ hle)
    lost_le := h.lost_le.trans hle }

/-- **A shard is handed to the receiver.** What comes back is still to be booked. -/
theorem Books.deliver (h : s.Books sent back) (hlt : sent + 1 < wordLimit) (shard : Bytes) :
    ∃ s' more, s.deliver shard = .ok (s', more) ∧ s'.sender = s.sender ∧
      s'.Books (sent + 1) (back + more.length) := by
  have hretunes := h.retunes_le
  have hbooked := h.booked_le
  obtain ⟨t, m, hdec, hsound, hretunes', hraised, hm, hle⟩ := Decoder.decode_gives h.sound (by omega) s.shared shard
  obtain ⟨n, hcounted, hn⟩ := h.counted
  have hdeliver : s.deliver shard = .ok ({ s with receiver := t.decoder, shared := t.shared }, t.recovered) := by
    rw [Simulation.deliver, hdec]
    rfl
  refine ⟨_, t.recovered, hdeliver, rfl, ?_⟩
  exact
    { sound := hsound
      retunes_le := hretunes'.trans (by omega)
      counted := ⟨n + m, hcounted.trans hraised, by rw [Pi.add_apply, hn, hm, Nat.add_assoc]⟩
      booked_le := by
        show s.tally.verified + s.tally.corrupted + (back + t.recovered.length) ≤ _
        omega
      lost_eq := h.lost_eq
      lost_le := h.lost_le.trans (Nat.le_succ sent)
      parity_le := h.parity_le }

/-- **A data shard**, which is lost or handed to the receiver. A lost payload is written down. -/
theorem Books.sendData (h : s.Books sent back) (hlt : sent + 1 < wordLimit) (src : Source σ) (payload shard : Bytes) :
    ∃ s' more, Simulation.sendData src s payload shard = .ok (s', more) ∧ s'.sender = s.sender ∧
      s'.Books (sent + 1) (back + more.length) := by
  have hlost := h.lost_eq
  unfold Simulation.sendData
  cases hloses : src.loses s.source with
  | mk isLost source =>
    cases isLost with
    | true =>
      have hmore := h.mono (Nat.le_succ sent)
      refine ⟨_, [], rfl, rfl, { hmore with lost_eq := ?_, lost_le := Nat.succ_le_succ h.lost_le }⟩
      show s.lost.length + 1 + s.tally.verified = s.tally.dataLost + 1
      omega
    | false =>
      have hbooks : Books { s with
          source
          tally := { s.tally with dataSent := s.tally.dataSent + 1 } } sent back := { h with }
      exact hbooks.deliver hlt shard

/-- **The parity behind a packet**, shard by shard. -/
theorem Books.sendParity (h : s.Books sent back) (src : Source σ) (shards : List Bytes)
    (hlt : sent + shards.length < wordLimit) :
    ∃ s' more, Simulation.sendParity src s shards = .ok (s', more) ∧ s'.sender = s.sender ∧
      s'.Books (sent + shards.length) (back + more.length) := by
  induction shards generalizing s sent back with
  | nil => exact ⟨s, [], rfl, rfl, h⟩
  | cons shard rest ih =>
    rw [List.length_cons] at hlt
    have hparity := h.parity_le
    unfold Simulation.sendParity
    cases hloses : src.loses s.source with
    | mk isLost source =>
      cases isLost with
      | true =>
        have hbooks : Books { s with
            source
            tally := { s.tally with
              paritySent := s.tally.paritySent + 1
              parityLost := s.tally.parityLost + 1 } } (sent + 1) back :=
          { h.mono (Nat.le_succ sent) with parity_le := Nat.succ_le_succ hparity }
        obtain ⟨s', more, hrest, hsender, h'⟩ := ih hbooks (by omega)
        refine ⟨s', more, ?_, hsender, ?_⟩
        · simp only [pure_bind, hrest, Checked.ok_bind, List.nil_append]
          rfl
        · rwa [List.length_cons, ← Nat.add_assoc, Nat.add_right_comm]
      | false =>
        have hbooks : Books { s with
            source
            tally := { s.tally with paritySent := s.tally.paritySent + 1 } } sent back :=
          { h with parity_le := Nat.le_succ_of_le hparity }
        obtain ⟨s₁, first, hfirst, hsender₁, h₁⟩ := hbooks.deliver (by omega) shard
        obtain ⟨s', more, hrest, hsender, h'⟩ := ih h₁ (by omega)
        refine ⟨s', first ++ more, ?_, hsender.trans hsender₁, ?_⟩
        · simp only [hfirst, hrest, Checked.ok_bind]
          rfl
        · rw [List.length_append, List.length_cons, ← Nat.add_assoc back]
          rwa [Nat.add_right_comm, Nat.add_assoc] at h'

/-- **A body that has come back is booked**, and one that is verified is crossed out of the lost ones. -/
theorem Books.verify (h : s.Books sent (back + 1)) (body : Bytes) :
    (s.verify body).sender = s.sender ∧ (s.verify body).Books sent back := by
  obtain ⟨n, hcounted, hn⟩ := h.counted
  have hbooked := h.booked_le
  have hlost := h.lost_eq
  have hcorrupted : Books { s with tally := { s.tally with corrupted := s.tally.corrupted + 1 } } sent back :=
    { h with
      counted := ⟨n, hcounted, by rw [hn]; ring⟩
      booked_le := by
        show s.tally.verified + (s.tally.corrupted + 1) + back ≤ _
        omega }
  unfold Simulation.verify
  split
  · rename_i payload hpayload
    split
    · rename_i hmem
      have hlength := List.length_erase_of_mem hmem
      have hpos := List.length_pos_of_mem hmem
      refine ⟨rfl, { h with
        counted := ⟨n, hcounted, by rw [hn]; ring⟩
        booked_le := ?_
        lost_eq := ?_ }⟩
      · show s.tally.verified + 1 + s.tally.corrupted + back ≤ _
        omega
      · show (s.lost.erase payload).length + (s.tally.verified + 1) = s.tally.dataLost
        omega
    · exact ⟨rfl, hcorrupted⟩
  · exact ⟨rfl, hcorrupted⟩

/-- All that has come back is booked. -/
theorem Books.foldl_verify {bodies : List Buffer} (h : s.Books sent bodies.length) :
    (bodies.foldl (fun s b => s.verify b.bytes) s).sender = s.sender ∧
      (bodies.foldl (fun s b => s.verify b.bytes) s).Books sent 0 := by
  induction bodies generalizing s with
  | nil => exact ⟨rfl, h⟩
  | cons b rest ih =>
    obtain ⟨hsender, hnext⟩ := h.verify b.bytes
    obtain ⟨hsender', hrest⟩ := ih hnext
    exact ⟨hsender'.trans hsender, hrest⟩

/-! ### Between two packets -/

/-- A session between two packets: its sender has sealed `i` of them, and its books are up to date. -/
structure Between (g : Geometry) (i : ℕ) (s : Simulation σ) : Prop where
  sender : ∃ bodies, s.sender.Tracks g 0 mtuLimit 0 i bodies
  books : s.Books (256 * i) 0

/-- **One packet**, with its parity and with all that comes back. -/
theorem Between.step (h : Between g i s) (hfits : ∀ x, (src.payload x).1.length + framingSize ≤ mtuLimit)
    (hlt : 256 * (i + 1) < wordLimit) : ∃ s', Simulation.step src s i = .ok s' ∧ Between g (i + 1) s' := by
  obtain ⟨bodies, htracks⟩ := h.sender
  have htotal := Geometry.total_le_256 htracks.valid
  have hdata := htracks.valid.data_pos
  obtain ⟨payload, x, hpayload⟩ : ∃ payload x, src.payload s.source = (payload, x) := ⟨_, _, rfl⟩
  have hlong : payload.length + framingSize ≤ mtuLimit := by
    have hdrawn := hfits s.source
    rwa [hpayload] at hdrawn
  -- the sender takes the packet
  obtain ⟨done, hencode, hseals⟩ := encode_fitting hlong htracks s.shared.counters (interval * (i % seqidLimit))
  have hparity : done.parity.length + 1 ≤ 256 := by
    have hlen := hseals.length_parity
    have hsum : g.total = g.data + g.parity := rfl
    split at hlen <;> omega
  -- its shards are lost or delivered
  have hbooks : Books { s with
      source := x
      sender := done.encoder
      shared := { s.shared with counters := done.counters } } (256 * i) 0 := by
    have hcounted := h.books.counted
    rw [← hseals.counters_eq] at hcounted
    exact { h.books with counted := hcounted }
  obtain ⟨s₁, first, hsent, hsender₁, h₁⟩ := hbooks.sendData (by omega) src (done.packet.drop framingSize)
    done.packet
  obtain ⟨s₂, more, hrest, hsender₂, h₂⟩ := h₁.sendParity src done.parity (by omega)
  rw [Nat.zero_add, ← List.length_append] at h₂
  -- and all that comes back is booked
  obtain ⟨hsender₃, h₃⟩ := h₂.foldl_verify
  refine ⟨_, step_eq hpayload hencode hsent hrest, ?_, h₃.mono (by omega)⟩
  rw [hsender₃, hsender₂, hsender₁]
  exact ⟨_, hseals.tracks⟩

/-- **A run of packets.** -/
theorem Between.steps (h : Between g i s) (hfits : ∀ x, (src.payload x).1.length + framingSize ≤ mtuLimit)
    (hlt : 256 * (i + n) < wordLimit) : ∃ s', Simulation.steps src n i s = .ok s' ∧ Between g (i + n) s' := by
  induction n generalizing i s with
  | zero => exact ⟨s, rfl, h⟩
  | succ n ih =>
    obtain ⟨s₁, hstep, h₁⟩ := h.step hfits (by omega)
    obtain ⟨s', hsteps, h'⟩ := ih h₁ (by omega)
    refine ⟨s', ?_, ?_⟩
    · rw [Simulation.steps, hstep]
      exact hsteps
    · rwa [Nat.add_right_comm] at h'

/-- A session starts with empty books, for any two valid geometries. -/
theorem start_between {sender receiver : Geometry} (hsender : sender.Valid) (hreceiver : receiver.Valid) (x : σ) :
    ∃ s, start sender receiver x = .ok s ∧ Between sender 0 s := by
  obtain ⟨e, pool, he⟩ := create_standard hsender
  obtain ⟨htracks, -⟩ := Encoder.tracks_create he
  have hd : Decoder.create receiver = .ok ⟨receiver, [], none, .empty, 0⟩ :=
    Decoder.create_eq_ok_iff.2 ⟨hreceiver, rfl⟩
  have hstart : start sender receiver x = .ok ⟨x, e, ⟨receiver, [], none, .empty, 0⟩, ⟨pool, .zero⟩, [], {}⟩ := by
    unfold start
    rw [he, hd]
    rfl
  refine ⟨_, hstart, ⟨[], htracks⟩, ?_⟩
  exact
    { sound := ⟨hreceiver, nofun⟩
      retunes_le := le_rfl
      counted := ⟨0, Counters.raised_refl _, rfl⟩
      booked_le := le_rfl
      lost_eq := rfl
      lost_le := le_rfl
      parity_le := le_rfl }

/-! ### What the books say -/

/-- The books of a session balance. What is lost and has not come back is counted by payload, as often as it was
lost. -/
structure Balanced (s : Simulation σ) : Prop where
  lost_eq : ∑ p ∈ s.lost.toFinset, s.lost.count p + s.tally.verified = s.tally.dataLost
  verified_le : s.tally.verified ≤ s.tally.dataLost
  recovered_eq : s.tally.verified + s.tally.corrupted = s.shared.counters.recovered.toNat
  parity_le : s.tally.parityLost ≤ s.tally.paritySent

theorem Between.balanced (h : Between g i s) (hlt : 65536 * i < wordLimit) : s.Balanced := by
  have hlost := h.books.lost_eq
  have hbooked := h.books.booked_le
  obtain ⟨n, hcounted, hn⟩ := h.books.counted
  have hget := Counters.toNat_get_of_raised hcounted (k := .recovered) not_false (by omega)
  have hsum : ∑ p ∈ s.lost.toFinset, s.lost.count p = s.lost.length := by
    convert List.sum_toFinset_count_eq_length s.lost
  refine ⟨?_, by omega, ?_, h.books.parity_le⟩
  · rw [hsum]
    exact hlost
  · rw [← Nat.add_zero (_ + _), ← hn]
    exact hget.symm

end Simulation

/-- The books of a finished session balance, and its rate is a share. -/
structure Outcome.Balanced (o : Outcome) : Prop where
  verified_le : o.tally.verified ≤ o.tally.dataLost
  unrecovered_eq : o.unrecovered = o.tally.dataLost - o.tally.verified
  recovered_eq : o.tally.verified + o.tally.corrupted = o.counters.recovered.toNat
  parity_le : o.tally.parityLost ≤ o.tally.paritySent
  rate : 0 ≤ o.recoveryRate.val ∧ o.recoveryRate.val ≤ 100

/-- The rate is a share of what was lost, where a mantissa can hold that. -/
theorem Outcome.recoveryRate_le {o : Outcome} (hle : o.tally.verified ≤ o.tally.dataLost)
    (hlt : o.tally.dataLost < Dyadic.mantissaLimit) : o.recoveryRate.val ≤ 100 := by
  unfold recoveryRate
  split
  · exact (Dyadic.val_ofNat (by decide)).le
  · rename_i hne
    exact Dyadic.percentage_le hle (Nat.pos_of_ne_zero hne) hlt

namespace Simulation

variable {σ : Type} {src : Source σ} {s : Simulation σ}

/-- A session that balances comes to an end that does. -/
theorem Balanced.outcome (h : s.Balanced) (hlt : s.tally.dataLost < Dyadic.mantissaLimit) :
    ∃ o, s.outcome = .ok o ∧ o.Balanced := by
  have hout : s.outcome =
      .ok ⟨s.tally, s.tally.dataLost - s.tally.verified, s.receiver.retunes, s.shared.counters⟩ := by
    rw [Simulation.outcome, Checked.sub_eq h.verified_le]
    rfl
  exact ⟨_, hout, h.verified_le, rfl, h.recovered_eq, h.parity_le, Dyadic.val_nonneg _,
    Outcome.recoveryRate_le h.verified_le hlt⟩

/-- A session of two geometries keeps its books: packet by packet it goes on and balances, and so does what it comes
to. -/
def KeepsBooks (src : Source σ) (sender receiver : Geometry) (n : ℕ) (x : σ) : Prop :=
  ∃ s₀ o, start sender receiver x = .ok s₀ ∧ (∀ k ≤ n, ∃ s, steps src k 0 s₀ = .ok s ∧ s.Balanced) ∧
    run src sender receiver n x = .ok o ∧ o.Balanced

/-- Whatever a source decides, a session keeps its books. -/
theorem keepsBooks {sender receiver : Geometry} {n : ℕ} (hsender : sender.Valid) (hreceiver : receiver.Valid)
    (hn : n < 2 ^ 32) (hfits : ∀ y, (src.payload y).1.length + framingSize ≤ mtuLimit) (x : σ) :
    KeepsBooks src sender receiver n x := by
  obtain ⟨s₀, hstart, hbetween⟩ := start_between hsender hreceiver x
  have hrun : ∀ k ≤ n, ∃ s, steps src k 0 s₀ = .ok s ∧ Between sender k s ∧ s.Balanced := by
    intro k hk
    obtain ⟨s, hsteps, h⟩ := hbetween.steps (n := k) hfits (by rw [wordLimit]; omega)
    rw [Nat.zero_add] at h
    exact ⟨s, hsteps, h, h.balanced (by rw [wordLimit]; omega)⟩
  obtain ⟨s, hsteps, h, hbalanced⟩ := hrun n le_rfl
  have hlost := h.books.lost_le
  obtain ⟨o, hout, hend⟩ := hbalanced.outcome (by rw [Dyadic.mantissaLimit]; omega)
  refine ⟨s₀, o, hstart, ?_, ?_, hend⟩
  · intro k hk
    obtain ⟨s, hsteps, -, hbalanced⟩ := hrun k hk
    exact ⟨s, hsteps, hbalanced⟩
  · unfold run
    rw [hstart]
    change (do (← steps src n 0 s₀).outcome) = _
    rw [hsteps]
    exact hout

/-- **Every session balances.** Sender and receiver may have any valid geometries, alike or not, and the source may
decide anything, as long as its payloads fit into a packet. After every packet the lost payloads that have not come back
and those that have been verified are together all that has been lost, every body that the receiver has given back is
booked once, and no more parity has been lost than sent. So the session ends without an underflow, with a rate between
zero and a hundred. The random source of every request that is accepted is one such source. -/
theorem bookkeeping {sender receiver : Geometry} {n : ℕ} (hsender : sender.Valid) (hreceiver : receiver.Valid)
    (hn : n < 2 ^ 32) :
    (∀ {σ : Type} (src : Source σ) (x : σ), (∀ y, (src.payload y).1.length + framingSize ≤ mtuLimit) →
      KeepsBooks src sender receiver n x) ∧
    ∀ (loss : Binary64) (payloadSize : ℕ) (seed : UInt64) (rate : Dyadic),
      SimulationRequest.lossRate ⟨sender, receiver, n, loss, payloadSize, seed⟩ = .ok rate →
      SimulationRequest.checkPayload ⟨sender, receiver, n, loss, payloadSize, seed⟩ = .ok () →
      SimulationRequest.run ⟨sender, receiver, n, loss, payloadSize, seed⟩ =
          run (randomSource payloadSize rate) sender receiver n (.ofSeed seed) ∧
        KeepsBooks (randomSource payloadSize rate) sender receiver n (.ofSeed seed) := by
  refine ⟨fun src x hfits => keepsBooks hsender hreceiver hn hfits x, ?_⟩
  intro loss payloadSize seed rate hrate hcheck
  obtain ⟨hpos, hlong⟩ := SimulationRequest.checkPayload_eq_ok_iff.1 hcheck
  have hfits : ∀ y, ((randomSource payloadSize rate).payload y).1.length + framingSize ≤ mtuLimit := by
    intro y
    exact (Nat.add_le_add_right (Generator.length_payload_le hpos rate y) _).trans hlong
  exact ⟨SimulationRequest.run_of_accepted hrate hcheck, keepsBooks hsender hreceiver hn hfits _⟩

/-- A receiver of groups of three and two hears a sender of groups of two and one: with one payload over and over, of
which some are lost, and with the random stream of a request that loses half of the shards. -/
theorem bookkeeping_of_wrong_geometry :
    KeepsBooks (listedLosses [7]) ⟨2, 1⟩ ⟨3, 2⟩ 6 [true, false, false, true] ∧
    SimulationRequest.lossRate ⟨⟨2, 1⟩, ⟨3, 2⟩, 6, .finite false ⟨1, -1⟩, 16, 42⟩ = .ok ⟨1, -1⟩ ∧
    KeepsBooks (randomSource 16 ⟨1, -1⟩) ⟨2, 1⟩ ⟨3, 2⟩ 6 (.ofSeed 42) := by
  have hsender : Geometry.Valid ⟨2, 1⟩ := by decide
  have hreceiver : Geometry.Valid ⟨3, 2⟩ := by decide
  obtain ⟨hlisted, hrequest⟩ := bookkeeping (n := 6) hsender hreceiver (by decide)
  have hfits : ([7] : Bytes).length + framingSize ≤ mtuLimit := by decide
  have hrate : SimulationRequest.lossRate ⟨⟨2, 1⟩, ⟨3, 2⟩, 6, .finite false ⟨1, -1⟩, 16, 42⟩ = .ok ⟨1, -1⟩ := rfl
  exact ⟨hlisted (listedLosses [7]) [true, false, false, true] fun _ => hfits, hrate,
    (hrequest _ 16 42 _ hrate rfl).2⟩

end Simulation

end PacketFec
