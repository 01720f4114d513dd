/-!
# Sizes and limits of the wire format
-/

namespace PacketFec

/-- Bytes of a shard header: a sequence id of four and a type tag of two. -/
def headerSize : Nat := 6

/-- Bytes of the length prefix behind the header of a data shard. -/
def sizePrefixLength : Nat := 2

/-- Bytes a sender reserves in front of its payload. -/
def framingSize : Nat := headerSize + sizePrefixLength

/-- Largest packet that the default buffers hold. -/
def mtuLimit : Nat := 1500

/-- Groups a shard set may lag behind the newest one before it is evicted. -/
def maxGroupLag : Nat := 3

/-- Pulses that the geometry detector keeps. -/
def pulseWindow : Nat := 256

/-- A detected run of this many pulses or more counts as noise. -/
def maxPeriod : Nat := 256

/-- Shards that a group can number in a field of 256 elements. -/
def maxGroupSize : Nat := 256

/-- Data shards of a group where none are given. -/
def defaultDataShards : Nat := 10

/-- Parity shards of a group where none are given. -/
def defaultParityShards : Nat := 3

/-- Gap in milliseconds from which a group counts as stale where none is given. -/
def defaultStaleness : Nat := 500

/-- Idle buffers that a pool keeps where no bound is given. -/
def defaultRetention : Nat := 1024

/-- One past the largest length that a size prefix can say. -/
def sizePrefixLimit : Nat := 65536

/-- One past the largest sequence id, which is a word of 32 bits. -/
def seqidLimit : Nat := 4294967296

/-- One past the largest word of 64 bits. -/
def wordLimit : Nat := 18446744073709551616

end PacketFec
