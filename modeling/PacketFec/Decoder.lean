import PacketFec.Code
import PacketFec.Config
import PacketFec.Counters
import PacketFec.PulseLog
import PacketFec.Serial
import PacketFec.Shard.Header
import PacketFec.ShardSet

/-!
# The receiver

A receiver sorts shards into the sets of their groups. As soon as a set holds `D` shards it is drained, and
the data shards that are missing are rebuilt. The newest group seen is the *floor*: shards of older groups
are dropped, and sets that lag behind it by more than three groups are evicted.

A shard whose kind does not fit its position betrays a sender with another geometry. It is dropped, and the
receiver asks its pulse log for the geometry of the sender. If the log names one, the receiver starts over
with it.

* `Decoder.create`: a new receiver.
* `Decoder.decode`: take a shard and give the data shards that it allowed to rebuild.
* `Decoder.close`: hand the buffers of all sets back.
-/

namespace PacketFec

/-- The state of a receiver. -/
structure Decoder where
  /-- The geometry it assumes. -/
  geometry : Geometry
  /-- The groups it tracks. -/
  sets : SetTable
  /-- The newest group seen. -/
  floor : Option Nat
  /-- The kinds of the latest shards. -/
  log : PulseLog
  /-- How often the geometry has changed. -/
  retunes : Nat

/-- What taking a shard gives. -/
structure Decoded where
  /-- The receiver afterwards. -/
  decoder : Decoder
  /-- The pool and the counters afterwards. -/
  shared : Shared
  /-- The rebuilt bodies, in the order of their positions. -/
  recovered : List Buffer

namespace Decoder

/-- A receiver that expects groups of a geometry. -/
def create (g : Geometry) : Except Error Decoder := do
  g.validate
  return ⟨g, [], none, .empty, 0⟩

/-- A receiver for a configuration, which must be valid. -/
def ofConfig (c : Config) : Except Error Decoder := do
  c.validate
  create c.geometry

/-- Groups tracked. -/
def tracked (d : Decoder) : Nat := d.sets.length

/-- Shards held of a group, if the group is tracked. -/
def membership (d : Decoder) (group : Nat) : Option Nat := (d.sets.get? group).map (·.members)

/-- Rebuild the missing data shards of a drained group. Packets lose their header and are filled up to the
longest body. All buffers but the rebuilt ones go back to the pool, and so does a buffer without memory for
each slot that has none, which only a pool of such buffers keeps. -/
def reconstruct (g : Geometry) (shared : Shared) (slots : List (Option Buffer)) :
    Except Error (Shared × List Buffer) :=
  if ∃ b ∈ slots.filterMap id, b.bytes.length < headerSize then .error .outOfRange
  else
    let bodies := slots.map (·.map fun b => b.hold (b.bytes.drop headerSize))
    let held := bodies.filterMap id
    let lost := (bodies.take g.data).countP Option.isNone
    let absent := List.replicate ((bodies.drop g.data).countP Option.isNone) Buffer.empty
    if lost = 0 then .ok ((shared.count .fullShardSets 1).release (held ++ absent), [])
    else
      let width := (held.map (·.bytes.length)).foldl max 0
      let padded := bodies.map (·.map (·.resize width 0))
      let (blanks, pool) := shared.pool.acquireMany lost
      let shared := { shared with pool }
      match Code.restore g (padded.map (·.map (·.bytes))) with
      | some restored =>
        let recovered := List.zipWith Buffer.hold (blanks.map (·.resize width 0)) restored
        let emptied := List.replicate lost Buffer.empty
        .ok ((shared.count .recovered (UInt64.ofNat recovered.length)).release
          (padded.filterMap id ++ emptied ++ absent), recovered)
      | none =>
        .ok ((shared.count .errors 1).release
          (padded.filterMap id ++ blanks.map (·.resize width 0) ++ absent), [])

/-- Whether a set lags too far behind the floor. -/
def lags (floor groups group : Nat) : Bool := Serial.groupDistance floor group groups > maxGroupLag

/-- Evict the sets that lag behind the floor, and write the gauge of tracked sets. -/
def evict (d : Decoder) (shared : Shared) (groups : Nat) : Decoder × Shared :=
  match d.floor with
  | none => (d, shared.gauge .shardSets d.tracked)
  | some floor =>
    let stale : SetTable := d.sets.filter fun entry => lags floor groups entry.1
    let kept : SetTable := d.sets.filter fun entry => !lags floor groups entry.1
    ({ d with sets := kept }, (shared.release stale.buffers).gauge .shardSets kept.length)

/-- Move the floor to a group that is newer, and write its gauge. -/
def raiseFloor (d : Decoder) (shared : Shared) (group groups : Nat) : Decoder × Shared :=
  let isNewer := match d.floor with
    | some floor => decide (Serial.groupDistance group floor groups > 0)
    | none => true
  if isNewer then ({ d with floor := some group }, shared.gauge .shardMin group) else (d, shared)

/-- Whether a group is older than the floor. -/
def behind (d : Decoder) (group groups : Nat) : Bool :=
  match d.floor with
  | some floor => Serial.groupDistance group floor groups < 0
  | none => false

/-- Put a shard into its slot, and drain and rebuild its group if that fills it up. -/
def place (d : Decoder) (shared : Shared) (shard : Shard) (group position : Nat) (set : ShardSet) :
    Except Error Decoded := do
  let shared := if shard.kind = .parity then shared.count .parityShards 1 else shared
  let (buffer, pool) := shared.pool.acquire
  let shared := { shared with pool }
  let set := set.insert position ((buffer.hold []).hold shard.bytes)
  if set.members ≥ d.geometry.data then
    let (shared, recovered) ← reconstruct d.geometry shared set.slots
    return ⟨{ d with sets := d.sets.put group set.drain }, shared, recovered⟩
  else
    return ⟨{ d with sets := d.sets.put group set }, shared, []⟩

/-- Take a shard whose kind fits its position. -/
def receive (d : Decoder) (shared : Shared) (shard : Shard) : Except Error Decoded := do
  let groups ← d.geometry.groupCount
  let group ← d.geometry.groupOf shard.seqid
  if d.behind group groups then return ⟨d, shared, []⟩
  let size ← d.geometry.size
  let position ← Checked.mod shard.seqid.toNat size
  let set := (d.sets.get? group).getD (.empty size)
  if ← set.absorbs position then return ⟨d, shared, []⟩
  let taken ← d.place shared shard group position set
  let (d, shared) := taken.decoder.raiseFloor taken.shared group groups
  let (d, shared) := d.evict shared groups
  return ⟨d, shared, taken.recovered⟩

/-- The geometry that the pulse log names, if it names both run lengths and they are no noise. -/
def detected? (d : Decoder) : Option Geometry :=
  match d.log.findPeriod true, d.log.findPeriod false with
  | some data, some parity =>
    if 0 < data ∧ 0 < parity ∧ data < maxPeriod ∧ parity < maxPeriod then some ⟨data, parity⟩ else none
  | _, _ => none

/-- Start over with another geometry. -/
def adopt (d : Decoder) (shared : Shared) (g : Geometry) : Except Error Decoded := do
  let retunes ← Checked.add d.retunes 1
  let shared := ((shared.release d.sets.buffers).gauge .shardSets 0).gauge .shardMin 0
  return ⟨{ d with geometry := g, sets := [], floor := none, retunes }, shared, []⟩

/-- Switch to the geometry that the pulse log names, if that is another one and valid. -/
def retune (d : Decoder) (shared : Shared) : Except Error Decoded :=
  match d.detected? with
  | none => .ok ⟨d, shared, []⟩
  | some g =>
    if g = d.geometry then .ok ⟨d, shared, []⟩
    else match g.validate with
      | .ok () => d.adopt shared g
      | .error _ => .ok ⟨d, shared, []⟩

/-- Take a packet that starts with a shard header, and give the bodies that it allowed to rebuild. What is
no shard, a duplicate, too old, or at the wrong position is dropped. -/
def decode (d : Decoder) (shared : Shared) (packet : Bytes) : Except Error Decoded :=
  match Shard.parse packet with
  | .error _ => .ok ⟨d, shared, []⟩
  | .ok shard => do
    let d := { d with log := d.log.sample shard.kind.isData shard.seqid }
    if (← d.geometry.kindAt shard.seqid) = shard.kind then d.receive shared shard
    else d.retune shared

/-- Hand the buffers of all sets back to the pool. -/
def close (d : Decoder) (pool : BufferPool) : BufferPool := pool.releaseAll d.sets.buffers

end Decoder

end PacketFec
