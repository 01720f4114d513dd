import PacketFec.Code
import PacketFec.Config
import PacketFec.Counters
import PacketFec.Shard.Header

/-!
# The sender

A sender seals each packet with a sequence id, the tag of data and a length prefix, and keeps a copy of its
body in a scratch slot. When it holds `D` bodies it computes the parity shards of the group.

```text
| outer framing | seqid (4) | tag (2) | size (2) | payload |
                ^ offset               ^ bodyStart
```

Parity covers everything from `bodyStart` to the end of the longest packet of the group. A group whose last
packet comes too long after the one before it is *stale*: it gets no parity, but the sequence ids of its
parity are used up, so that every group starts at a multiple of the group size.

* `Encoder.create`, `Encoder.startAt`: a new sender, and where its numbering starts.
* `Encoder.encode`: seal a packet, and give the parity of its group if that is now complete.
* `Encoder.close`: hand the scratch slots back.
-/

namespace PacketFec

/-- A scratch slot: a buffer, and the length of the packet whose body it keeps. -/
structure ScratchSlot where
  /-- The memory. -/
  buffer : Buffer
  /-- Length of the packet last copied here. -/
  used : Nat

namespace ScratchSlot

/-- The slot with some bytes written at a position. -/
def write (s : ScratchSlot) (start : Nat) (part : Bytes) : ScratchSlot :=
  { s with buffer := s.buffer.hold (s.buffer.bytes.overwrite start part) }

/-- The slot with zeros from the end of its packet up to `stop`. -/
def pad (s : ScratchSlot) (stop : Nat) : ScratchSlot :=
  s.write s.used (Bytes.zeros (stop - s.used))

end ScratchSlot

/-- The state of a sender. -/
structure Encoder where
  /-- The geometry of its groups. -/
  geometry : Geometry
  /-- Where sequence ids wrap. -/
  ceiling : Nat
  /-- The next sequence id. -/
  next : UInt32
  /-- Bytes in front of the shard header that belong to an outer layer. -/
  offset : Nat
  /-- Bytes in each scratch slot. -/
  slotSize : Nat
  /-- One slot for each shard of a group, data first. -/
  scratch : List ScratchSlot
  /-- Packets of the current group. -/
  count : Nat
  /-- Length of the longest packet of the current group. -/
  longest : Nat
  /-- When the latest packet came, in microseconds. -/
  latest : Option Nat

/-- What sealing a packet gives. -/
structure Sealed where
  /-- The sender afterwards. -/
  encoder : Encoder
  /-- The counters afterwards. -/
  counters : Counters
  /-- The packet with its header and length prefix. -/
  packet : Bytes
  /-- The parity of the group, each behind the same offset as the packet. -/
  parity : List Bytes

namespace Encoder

/-- Where the body of a packet starts. -/
def bodyStart (e : Encoder) : Nat := e.offset + headerSize

/-- A sender of groups of a geometry, with its scratch slots from the pool. -/
def create (g : Geometry) (offset : Nat) (pool : BufferPool) : Except Error (Encoder × BufferPool) := do
  g.validate
  let framed ← Checked.add (← Checked.add offset headerSize) sizePrefixLength
  if framed > pool.bufferSize then throw (.headerOffsetTooLarge offset pool.bufferSize)
  let ceiling ← g.paws
  let (buffers, pool') := pool.acquireMany (← g.size)
  return ({ geometry := g
            ceiling
            next := 0
            offset
            slotSize := pool.bufferSize
            scratch := buffers.map (⟨·, 0⟩)
            count := 0
            longest := 0
            latest := none }, pool')

/-- A sender for a configuration, which must be valid. -/
def ofConfig (c : Config) (pool : BufferPool) : Except Error (Encoder × BufferPool) := do
  c.validate
  create c.geometry c.headerOffset pool

/-- Start numbering at the group that holds a sequence id. -/
def startAt (e : Encoder) (seqid : UInt32) : Except Error Encoder := do
  let wrapped ← Checked.mod seqid.toNat e.ceiling
  let position ← Checked.mod wrapped (← e.geometry.stride)
  return { e with next := UInt32.ofNat (wrapped - position) }

/-- Hand out the next sequence ids. -/
def advance (e : Encoder) (n : Nat) : Except Error Encoder := do
  return { e with next := UInt32.ofNat (← Checked.mod (e.next.toNat + n) e.ceiling) }

/-- Refuse a packet without room for its header, or too long for a slot or for its length prefix. -/
def screen (e : Encoder) (size : Nat) : Except Error Unit :=
  if size < e.bodyStart + sizePrefixLength then
    .error (.packetTooShort (e.bodyStart + sizePrefixLength) size)
  else if size > e.slotSize then .error (.packetTooLarge size e.slotSize)
  else if size > e.bodyStart + (sizePrefixLimit - 1) then
    .error (.packetTooLarge size (e.bodyStart + (sizePrefixLimit - 1)))
  else .ok ()

/-- Keep a body in the next scratch slot. -/
def store (e : Encoder) (size : Nat) (body : Bytes) : Except Error Encoder :=
  match e.scratch[e.count]? with
  | none => .error .outOfRange
  | some slot =>
    if slot.buffer.bytes.length < size then .error .outOfRange
    else .ok { e with
      scratch := e.scratch.set e.count { slot.write e.bodyStart body with used := size }
      count := e.count + 1
      longest := max e.longest size }

/-- Whether the latest packet came less than `staleness` microseconds ago. A clock that went backwards
counts as no time at all. -/
def continues (e : Encoder) (staleness now : Nat) : Bool :=
  match e.latest with
  | some t => now - t < staleness
  | none => false

/-- Write parity bodies and their headers into slots, with the next sequence ids. -/
def sealParity (e : Encoder) : List ScratchSlot → List Bytes → Except Error (Encoder × List ScratchSlot)
  | slot :: slots, body :: bodies => do
    let header : Header := ⟨e.next, .parity⟩
    let slot := (slot.write e.bodyStart body).write e.offset header.toBytes
    let (e, slots) ← sealParity (← e.advance 1) slots bodies
    return (e, slot :: slots)
  | slots, _ => .ok (e, slots)

/-- Whether all slots reach up to the end of the longest packet, which no packet of the group exceeds. -/
def SlotsReach (e : Encoder) : Prop :=
  e.bodyStart ≤ e.longest ∧ (∀ slot ∈ e.scratch, e.longest ≤ slot.buffer.bytes.length) ∧
    ∀ slot ∈ e.scratch.take e.geometry.data, slot.used ≤ e.longest

instance (e : Encoder) : Decidable e.SlotsReach := by unfold SlotsReach; infer_instance

/-- Compute the parity of a full group and write it into the parity slots. The result is `none` where the
code refuses the group. -/
def protect (e : Encoder) : Except Error (Option Encoder) :=
  if ¬ e.SlotsReach then .error .outOfRange
  else
    let data := (e.scratch.take e.geometry.data).map (·.pad e.longest)
    let spare := e.scratch.drop e.geometry.data
    let bodies := (data ++ spare).map (·.buffer.bytes.slice e.bodyStart e.longest)
    match Code.parity e.geometry bodies with
    | none => .ok none
    | some parity => do
      let (e, spare) ← e.sealParity spare parity
      return some { e with scratch := data ++ spare }

/-- Where `protect` gives a sender, the slots reach far enough, the code accepts the padded data slots and the parity
slots behind them, and the parity has been sealed. -/
theorem protect_inv {e e' : Encoder} (h : e.protect = .ok (some e')) : e.SlotsReach ∧ ∃ parity e₁ spare,
    Code.parity e.geometry (((e.scratch.take e.geometry.data).map (·.pad e.longest) ++
      e.scratch.drop e.geometry.data).map (·.buffer.bytes.slice e.bodyStart e.longest)) = some parity ∧
    e.sealParity (e.scratch.drop e.geometry.data) parity = .ok (e₁, spare) ∧
    e' = { e₁ with scratch := (e.scratch.take e.geometry.data).map (·.pad e.longest) ++ spare } := by
  unfold protect at h
  split at h
  · cases h
  rename_i hreach
  simp only at h
  split at h
  · cases h
  rename_i parity hcode
  obtain ⟨⟨e₁, spare⟩, hseal, h⟩ := Checked.bind_eq_ok.1 h
  cases h
  exact ⟨Decidable.not_not.1 hreach, parity, e₁, spare, hcode, hseal, rfl⟩

/-- Begin the next group. -/
def beginGroup (e : Encoder) : Encoder := { e with count := 0, longest := 0 }

/-- Finish a full group: give its parity, or use up the sequence ids of the parity where the group is stale
or the code refuses it. A refusal is counted. -/
def finishGroup (e : Encoder) (counters : Counters) (continuous : Bool) :
    Except Error (Encoder × Counters × List Bytes) := do
  if continuous then
    match ← e.protect with
    | some e =>
      return (e.beginGroup, counters,
        (e.scratch.drop e.geometry.data).map (·.buffer.bytes.take e.longest))
    | none => return ((← e.advance e.geometry.parity).beginGroup, counters.add .errors 1, [])
  else
    return ((← e.advance e.geometry.parity).beginGroup, counters, [])

/-- Seal a packet that reserves room for its header and length prefix, at a time `now` in microseconds. If
that completes a group, give the parity of the group too. -/
def encode (e : Encoder) (counters : Counters) (packet : Bytes) (staleness now : Nat) :
    Except Error Sealed := do
  let size := packet.length
  e.screen size
  let header : Header := ⟨e.next, .data⟩
  let body := Frame.encode (packet.drop (e.bodyStart + sizePrefixLength))
  let sealed := packet.take e.offset ++ header.toBytes ++ body
  let stored ← (← e.advance 1).store size body
  let (done, counters, parity) ←
    if stored.count = stored.geometry.data then
      stored.finishGroup counters (e.continues staleness now)
    else pure (stored, counters, [])
  return ⟨{ done with latest := some now }, counters, sealed, parity⟩

/-- Hand the scratch slots back to the pool. -/
def close (e : Encoder) (pool : BufferPool) : BufferPool :=
  pool.releaseAll (e.scratch.map (·.buffer))

end Encoder

end PacketFec
