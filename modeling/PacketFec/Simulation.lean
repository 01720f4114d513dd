import PacketFec.Decoder
import PacketFec.Encoder
import PacketFec.Failure
import PacketFec.Random

/-!
# Simulated sessions

A simulation sends packets through a sender, a channel that loses shards, and a receiver, and compares every
recovered payload with the lost ones. Payloads and losses come from a `Source`, which the random stream is
one of.

* `Simulation.step`: one packet and the parity it completes.
* `Simulation.run`: a whole session.
-/

namespace PacketFec

/-- Where payloads and losses come from. -/
structure Source (σ : Type) where
  /-- The next payload. -/
  payload : σ → Bytes × σ
  /-- Whether the next shard is lost. -/
  loses : σ → Bool × σ

/-- The shards of a session by what became of them. -/
structure Tally where
  /-- Data shards sent. -/
  dataSent : Nat := 0
  /-- Parity shards sent. -/
  paritySent : Nat := 0
  /-- Data shards lost. -/
  dataLost : Nat := 0
  /-- Parity shards lost. -/
  parityLost : Nat := 0
  /-- Recovered payloads that equal a lost one. -/
  verified : Nat := 0
  /-- Recovered payloads that equal none. -/
  corrupted : Nat := 0

/-- A session under way. -/
structure Simulation (σ : Type) where
  /-- The place in the source. -/
  source : σ
  /-- The sender. -/
  sender : Encoder
  /-- The receiver. -/
  receiver : Decoder
  /-- What they share. -/
  shared : Shared
  /-- Lost payloads that have not been recovered. -/
  lost : List Bytes
  /-- What became of the shards so far. -/
  tally : Tally

/-- What a session comes to. -/
structure Outcome where
  /-- What became of the shards. -/
  tally : Tally
  /-- Lost payloads that were never recovered. -/
  unrecovered : Nat
  /-- How often the receiver changed its geometry. -/
  retunes : Nat
  /-- The counters of the session. -/
  counters : Counters

namespace Outcome

/-- The share of lost payloads that came back, in percent. -/
def recoveryRate (o : Outcome) : Dyadic :=
  if o.tally.dataLost = 0 then .ofNat 100 else .percentage o.tally.verified o.tally.dataLost

end Outcome

namespace Simulation

variable {σ : Type}

/-- Microseconds between packets. -/
def interval : Nat := 1000

/-- Microseconds between packets from which a group is stale. -/
def staleness : Nat := 500000

/-- Hand a shard to the receiver. -/
def deliver (s : Simulation σ) (shard : Bytes) : Except Error (Simulation σ × List Buffer) := do
  let done ← s.receiver.decode s.shared shard
  return ({ s with receiver := done.decoder, shared := done.shared }, done.recovered)

/-- Send a data shard with a payload. -/
def sendData (src : Source σ) (s : Simulation σ) (payload shard : Bytes) :
    Except Error (Simulation σ × List Buffer) :=
  let (isLost, source) := src.loses s.source
  let tally := { s.tally with dataSent := s.tally.dataSent + 1 }
  if isLost then
    .ok ({ s with
      source
      lost := payload :: s.lost
      tally := { tally with dataLost := tally.dataLost + 1 } }, [])
  else deliver { s with source, tally } shard

/-- Send parity shards. -/
def sendParity (src : Source σ) (s : Simulation σ) : List Bytes → Except Error (Simulation σ × List Buffer)
  | [] => .ok (s, [])
  | shard :: rest => do
    let (isLost, source) := src.loses s.source
    let tally := { s.tally with paritySent := s.tally.paritySent + 1 }
    let (s, first) ←
      if isLost then
        pure ({ s with source, tally := { tally with parityLost := tally.parityLost + 1 } }, [])
      else deliver { s with source, tally } shard
    let (s, more) ← sendParity src s rest
    return (s, first ++ more)

/-- Compare a recovered body with the lost payloads. A payload that was lost twice may come back twice. -/
def verify (s : Simulation σ) (body : Bytes) : Simulation σ :=
  match Frame.payload? body with
  | some payload =>
    if payload ∈ s.lost then
      { s with lost := s.lost.erase payload, tally := { s.tally with verified := s.tally.verified + 1 } }
    else { s with tally := { s.tally with corrupted := s.tally.corrupted + 1 } }
  | none => { s with tally := { s.tally with corrupted := s.tally.corrupted + 1 } }

/-- Send packet number `i` and the parity that it completes, and verify what comes back. -/
def step (src : Source σ) (s : Simulation σ) (i : Nat) : Except Failure (Simulation σ) := do
  let (payload, source) := src.payload s.source
  let done ← Failure.lift .packetRefused
    (s.sender.encode s.shared.counters (Bytes.zeros framingSize ++ payload) staleness
      (interval * (i % seqidLimit)))
  let s := { s with
    source, sender := done.encoder, shared := { s.shared with counters := done.counters } }
  let (s, first) ← Failure.lift .fault (sendData src s (done.packet.drop framingSize) done.packet)
  let (s, more) ← Failure.lift .fault (sendParity src s done.parity)
  return (first ++ more).foldl (fun s b => s.verify b.bytes) s

/-- Send packets from number `i` on. -/
def steps (src : Source σ) : Nat → Nat → Simulation σ → Except Failure (Simulation σ)
  | 0, _, s => .ok s
  | n + 1, i, s =>
    match step src s i with
    | .ok s => steps src n (i + 1) s
    | .error f => .error f

/-- What a session comes to. -/
def outcome (s : Simulation σ) : Except Failure Outcome := do
  let unrecovered ← Failure.lift .fault (Checked.sub s.tally.dataLost s.tally.verified)
  return ⟨s.tally, unrecovered, s.receiver.retunes, s.shared.counters⟩

/-- A session before its first packet. -/
def start (sender receiver : Geometry) (source : σ) : Except Failure (Simulation σ) := do
  let (encoder, pool) ← Failure.lift .senderRefused (Encoder.create sender 0 .standard)
  let decoder ← Failure.lift .receiverRefused (Decoder.create receiver)
  return ⟨source, encoder, decoder, ⟨pool, .zero⟩, [], {}⟩

/-- A session of a number of packets. -/
def run (src : Source σ) (sender receiver : Geometry) (packets : Nat) (source : σ) :
    Except Failure Outcome := do
  let s ← start sender receiver source
  (← steps src packets 0 s).outcome

/-- How many of 2^64 equally likely words stand for a loss. -/
def threshold (loss : Dyadic) : Nat := loss.num * wordLimit / loss.den

/-- Payloads of one up to `payloadSize` random bytes, and losses with a given rate. Where every shard is
lost, nothing is drawn for it. -/
def randomSource (payloadSize : Nat) (loss : Dyadic) : Source Generator where
  payload g :=
    let (length, g) := g.upTo payloadSize
    g.bytes length
  loses g := if loss.num = loss.den then (true, g) else g.below (threshold loss)

end Simulation

/-- What a simulation is asked for. -/
structure SimulationRequest where
  /-- The geometry of the sender. -/
  sender : Geometry
  /-- The geometry that the receiver assumes at first. -/
  receiver : Geometry
  /-- Packets to send. -/
  packets : Nat
  /-- The rate of losses. -/
  loss : Binary64
  /-- The length of the longest payload. -/
  payloadSize : Nat
  /-- The seed of the random stream. -/
  seed : UInt64

namespace SimulationRequest

/-- Refuse a rate that is no probability, and give its magnitude. -/
def lossRate (r : SimulationRequest) : Except Failure Dyadic :=
  match r.loss with
  | .finite _ d => if r.loss.IsProbability then .ok d else .error (.lossOutOfRange r.loss)
  | _ => .error (.lossOutOfRange r.loss)

/-- Refuse payloads of no bytes and payloads that do not fit into a packet. -/
def checkPayload (r : SimulationRequest) : Except Failure Unit :=
  if r.payloadSize = 0 then .error .payloadOutOfRange
  else do
    let framed ← Failure.lift .fault (Checked.add r.payloadSize framingSize)
    if framed > mtuLimit then throw .payloadOutOfRange

/-- Run the simulation that is asked for. -/
def run (r : SimulationRequest) : Except Failure Outcome := do
  let loss ← r.lossRate
  r.checkPayload
  Simulation.run (Simulation.randomSource r.payloadSize loss) r.sender r.receiver r.packets
    (Generator.ofSeed r.seed)

end SimulationRequest

end PacketFec
