import Mathlib
import PacketFec.Proofs.SimulationRuns

/-!
# Requested simulations are exact

A request names a geometry, a number of packets, a rate of losses, the length of the longest payload and a seed. If
the rate is a probability and payloads of that length fit into a packet, the random source of the request draws
payloads that fit, and so its session is exact, as that of any source is.

* `Generator.length_payload_le`: a random payload is no longer than asked for.
* `SimulationRequest.run_eq`: what a request runs.
* `Simulation.exactness`: **every session is exact**, for any source and for the random source of a request.
-/

namespace PacketFec

namespace Generator

/-- A word is put together from two halves. -/
theorem word64_lt (x : Generator) : x.word64.1 < wordLimit := by
  have hlow := x.word32.1.toNat_lt
  have hhigh := x.word32.2.word32.1.toNat_lt
  have hword : x.word64.1 = x.word32.1.toNat + seqidLimit * x.word32.2.word32.1.toNat := rfl
  rw [hword]
  simp only [seqidLimit, wordLimit]
  omega

/-- However many words are drawn, a scaled one stays below the scale. -/
theorem scaled_lt {n : ℕ} (hn : 0 < n) (zone fuel : ℕ) (x : Generator) : (scaled zone n fuel x).1 < n := by
  induction fuel generalizing x with
  | zero => exact hn
  | succ fuel ih =>
    have hscaled : scaled zone n (fuel + 1) x = if x.word64.1 * n % wordLimit ≤ zone
        then (x.word64.1 * n / wordLimit, x.word64.2) else scaled zone n fuel x.word64.2 := rfl
    rw [hscaled]
    split
    · exact Nat.div_lt_of_lt_mul (Nat.mul_lt_mul_of_pos_right x.word64_lt hn)
    · exact ih _

theorem upTo_le {n : ℕ} (hn : 0 < n) (x : Generator) : (x.upTo n).1 ≤ n := by
  unfold upTo
  -- nothing depends on how many words are drawn at most
  generalize 4096 = fuel
  exact Nat.succ_le_of_lt (scaled_lt hn _ fuel x)

theorem length_bytes_le (x : Generator) (n : ℕ) : (x.bytes n).1.length ≤ n := by
  have hbytes : (x.bytes n).1 = (x.wordBytes ((n + 3) / 4)).1.take n := rfl
  rw [hbytes, List.length_take]
  exact min_le_left _ _

/-- A random payload is no longer than asked for. -/
theorem length_payload_le {payloadSize : ℕ} (hpos : 0 < payloadSize) (loss : Dyadic) (x : Generator) :
    ((Simulation.randomSource payloadSize loss).payload x).1.length ≤ payloadSize :=
  (length_bytes_le (x.upTo payloadSize).2 (x.upTo payloadSize).1).trans (upTo_le hpos x)

end Generator

namespace SimulationRequest

/-- The lengths of payloads that are accepted. -/
theorem checkPayload_eq_ok_iff {r : SimulationRequest} :
    r.checkPayload = .ok () ↔ 0 < r.payloadSize ∧ r.payloadSize + framingSize ≤ mtuLimit := by
  unfold checkPayload
  by_cases hzero : r.payloadSize = 0
  · simp [hzero]
  rw [if_neg hzero]
  by_cases hfits : r.payloadSize + framingSize ≤ mtuLimit
  · have hsum : Checked.add r.payloadSize framingSize = .ok (r.payloadSize + framingSize) :=
      Checked.add_eq (lt_of_le_of_lt hfits (by decide))
    refine iff_of_true ?_ ⟨Nat.pos_of_ne_zero hzero, hfits⟩
    rw [hsum]
    exact if_neg (Nat.not_lt.2 hfits)
  · refine iff_of_false ?_ (fun h => hfits h.2)
    intro h
    cases hsum : Checked.add r.payloadSize framingSize with
    | error e =>
      rw [hsum] at h
      cases h
    | ok framed =>
      have hframed := Checked.eq_add hsum
      rw [hsum] at h
      change (if framed > mtuLimit then Except.error Failure.payloadOutOfRange else Except.ok ()) = Except.ok () at h
      rw [if_pos (by omega)] at h
      cases h

/-- What a request runs that is accepted. -/
theorem run_of_accepted {r : SimulationRequest} {rate : Dyadic} (hrate : r.lossRate = .ok rate)
    (hcheck : r.checkPayload = .ok ()) : r.run = Simulation.run (Simulation.randomSource r.payloadSize rate) r.sender
      r.receiver r.packets (Generator.ofSeed r.seed) := by
  unfold run
  rw [hrate, hcheck]
  rfl

/-- What a request runs whose rate of losses is a probability and whose payloads fit. -/
theorem run_eq {r : SimulationRequest} (hloss : r.loss.IsProbability) (hpos : 0 < r.payloadSize)
    (hfits : r.payloadSize + framingSize ≤ mtuLimit) :
    ∃ loss, r.lossRate = .ok loss ∧ r.run = Simulation.run (Simulation.randomSource r.payloadSize loss) r.sender
      r.receiver r.packets (Generator.ofSeed r.seed) := by
  obtain ⟨loss, hrate⟩ : ∃ loss, r.lossRate = .ok loss := by
    unfold lossRate
    cases hr : r.loss with
    | finite negative d =>
      rw [hr] at hloss
      exact ⟨d, if_pos hloss⟩
    | infinite negative =>
      rw [hr] at hloss
      exact hloss.elim
    | nan =>
      rw [hr] at hloss
      exact hloss.elim
  exact ⟨loss, hrate, run_of_accepted hrate (checkPayload_eq_ok_iff.2 ⟨hpos, hfits⟩)⟩

end SimulationRequest

namespace Simulation

/-- **Every session is exact.** Sender and receiver have the same valid geometry, and the groups of the session are
told apart by half of the sequence ids. Then the session comes to what its ledger tells, whatever the source decides,
as long as its payloads fit into a packet. All of the lost payloads of a group come back if `D` of its shards arrive,
and none of them elsewhere; nothing comes back that was not lost, and the counters agree. The random source of a
request is one such source. -/
theorem exactness {g : Geometry} {n : ℕ} (hg : g.Valid)
    (hn : (n / g.data + 1) * (g.data + g.parity) < 2 ^ 31) :
    (∀ {σ : Type} (src : Source σ) (x : σ), (∀ y, (src.payload y).1.length + framingSize ≤ mtuLimit) →
      ∃ o, run src g g n x = .ok o ∧ o.Exact g (src.ledger g n 0 x)) ∧
    ∀ (loss : Binary64) (payloadSize : ℕ) (seed : UInt64), loss.IsProbability → 0 < payloadSize →
      payloadSize + framingSize ≤ mtuLimit →
      ∃ rate o, SimulationRequest.lossRate ⟨g, g, n, loss, payloadSize, seed⟩ = .ok rate ∧
        SimulationRequest.run ⟨g, g, n, loss, payloadSize, seed⟩ = .ok o ∧
        o.Exact g ((randomSource payloadSize rate).ledger g n 0 (.ofSeed seed)) := by
  refine ⟨fun src x hlong => run_exact hg hn hlong x, fun loss payloadSize seed hloss hpos hfits => ?_⟩
  obtain ⟨rate, hrate, hrun⟩ :=
    SimulationRequest.run_eq (r := ⟨g, g, n, loss, payloadSize, seed⟩) hloss hpos hfits
  have hlong : ∀ y, ((randomSource payloadSize rate).payload y).1.length + framingSize ≤ mtuLimit := fun y =>
    (Nat.add_le_add_right (Generator.length_payload_le hpos rate y) _).trans hfits
  obtain ⟨o, ho, hexact⟩ := run_exact hg hn hlong (.ofSeed seed)
  exact ⟨rate, o, hrate, hrun.trans ho, hexact⟩

/-- A source of one payload over and over, with losses as they are listed. -/
def listedLosses (payload : Bytes) : Source (List Bool) where
  payload losses := (payload, losses)
  loses losses := (losses.headD false, losses.tail)

/-- In groups of two packets and one parity shard, the first packet is lost and comes back, although the second one
has the same payload. The third packet is lost too, and its group never becomes complete. A request that loses half of
the shards comes to what the random stream decides. -/
theorem exactness_of_repeated_payloads :
    (∃ o, run (listedLosses [7]) ⟨2, 1⟩ ⟨2, 1⟩ 3 [true, false, false, true] = .ok o ∧
      o.Exact ⟨2, 1⟩ [⟨[7], true, []⟩, ⟨[7], false, [false]⟩, ⟨[7], true, []⟩]) ∧
    ∃ rate o, SimulationRequest.lossRate ⟨⟨2, 1⟩, ⟨2, 1⟩, 3, .finite false ⟨1, -1⟩, 16, 42⟩ = .ok rate ∧
      SimulationRequest.run ⟨⟨2, 1⟩, ⟨2, 1⟩, 3, .finite false ⟨1, -1⟩, 16, 42⟩ = .ok o ∧
      o.Exact ⟨2, 1⟩ ((randomSource 16 rate).ledger ⟨2, 1⟩ 3 0 (.ofSeed 42)) := by
  obtain ⟨hlisted, hrandom⟩ := exactness (g := ⟨2, 1⟩) (n := 3) (by decide) (by decide)
  have hfits : ([7] : Bytes).length + framingSize ≤ mtuLimit := by decide
  exact ⟨hlisted (listedLosses [7]) [true, false, false, true] fun _ => hfits,
    hrandom (.finite false ⟨1, -1⟩) 16 42 (by decide) (by decide) (by decide)⟩

end Simulation

end PacketFec
