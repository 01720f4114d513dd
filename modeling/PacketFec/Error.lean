/-!
# Ways an operation can fail

An operation on shards either succeeds or gives an `Error`. The first constructors are *refusals*: the
request breaks a stated limit, and the constructor holds the numbers that its message shows. The last three
are *faults*: 64-bit arithmetic left its range, a divisor was zero, or a position lay outside a buffer. A
fault ends the program; a refusal does not.

* `Error.message`: the text of each error.
* `Error.IsFault`: the faults.
-/

namespace PacketFec

/-- Why an operation gave no result. -/
inductive Error where
  /-- A group needs at least one shard of each kind and at most 256 in all. -/
  | invalidShardCount (data parity : Nat)
  /-- A buffer is too short for the header it must carry. -/
  | packetTooShort (expected actual : Nat)
  /-- A packet is longer than a scratch slot, or than its size prefix can say. -/
  | packetTooLarge (size limit : Nat)
  /-- The outer framing leaves no room for a shard. -/
  | headerOffsetTooLarge (offset limit : Nat)
  /-- A type tag is neither that of data nor that of parity. -/
  | unknownShardType (tag : UInt16)
  /-- A session would treat every packet as stale. -/
  | zeroStaleness
  /-- A count does not fit into 64 bits. -/
  | overflow
  /-- A divisor is zero. -/
  | zeroDivisor
  /-- A position lies outside the buffer or the slots it points into. -/
  | outOfRange
  deriving DecidableEq

/-- The four hexadecimal digits of a 16-bit tag. -/
def tagDigits (tag : UInt16) : String :=
  String.ofList ([4096, 256, 16, 1].map fun place => Nat.digitChar (tag.toNat / place % 16))

namespace Error

/-- The faults, after which the program does not go on. -/
def IsFault : Error → Prop
  | overflow | zeroDivisor | outOfRange => True
  | _ => False

instance : DecidablePred IsFault := fun e => by cases e <;> unfold IsFault <;> infer_instance

/-- The text shown for an error. -/
def message : Error → String
  | invalidShardCount data parity => s!"Invalid shard counts: data={data}, parity={parity}"
  | packetTooShort expected actual =>
      s!"Packet too short: expected at least {expected} bytes, got {actual}"
  | packetTooLarge size limit => s!"Packet size {size} exceeds MTU limit {limit}"
  | headerOffsetTooLarge offset limit =>
      s!"Header offset {offset} leaves no room for a shard inside MTU {limit}"
  | unknownShardType tag => "Unknown shard type tag: 0x" ++ tagDigits tag
  | zeroStaleness => "Invalid configuration: staleness_ms must be greater than zero"
  | overflow => "a count exceeds 64 bits"
  | zeroDivisor => "a divisor is zero"
  | outOfRange => "a position is out of range"

end Error

end PacketFec
