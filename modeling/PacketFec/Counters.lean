import PacketFec.BufferPool

/-!
# What the endpoints of a process share

All senders and receivers of a process take their buffers from one pool and write to the same six counters. Four of
the counters count events and only grow, modulo 2^64; two are gauges, which hold what the last receiver wrote.
-/

namespace PacketFec

/-- The six counters. -/
inductive Counter where
  /-- Gauge: shard sets that the last receiver tracks. -/
  | shardSets
  /-- Groups that arrived complete. -/
  | fullShardSets
  /-- Parity shards taken into a set. -/
  | parityShards
  /-- Data shards rebuilt from parity. -/
  | recovered
  /-- Groups that the code refused. -/
  | errors
  /-- Gauge: the newest group of the last receiver that moved on. -/
  | shardMin
  deriving DecidableEq

namespace Counter

/-- All counters, in the order of a snapshot. -/
def all : List Counter := [shardSets, fullShardSets, parityShards, recovered, errors, shardMin]

/-- All counters, in the order of a table. -/
def columns : List Counter := [fullShardSets, parityShards, errors, recovered, shardSets, shardMin]

/-- The name of a counter in a snapshot. -/
def field : Counter → String
  | shardSets => "shard_sets"
  | fullShardSets => "full_shard_sets"
  | parityShards => "parity_shards"
  | recovered => "recovered"
  | errors => "errors"
  | shardMin => "shard_min"

/-- The head of a counter's column in a table. -/
def heading : Counter → String
  | shardSets => "FECShardSet"
  | fullShardSets => "FECFullShardSet"
  | parityShards => "FECParityShards"
  | recovered => "FECRecovered"
  | errors => "FECErrs"
  | shardMin => "FECShardMin"

end Counter

/-- The value of each counter. -/
structure Counters where
  shardSets : UInt64
  fullShardSets : UInt64
  parityShards : UInt64
  recovered : UInt64
  errors : UInt64
  shardMin : UInt64
  deriving DecidableEq

namespace Counters

/-- All counters at zero. -/
def zero : Counters := ⟨0, 0, 0, 0, 0, 0⟩

/-- The value of one counter. -/
def get (c : Counters) : Counter → UInt64
  | .shardSets => c.shardSets
  | .fullShardSets => c.fullShardSets
  | .parityShards => c.parityShards
  | .recovered => c.recovered
  | .errors => c.errors
  | .shardMin => c.shardMin

/-- Write one counter. -/
def set (c : Counters) : Counter → UInt64 → Counters
  | .shardSets, n => { c with shardSets := n }
  | .fullShardSets, n => { c with fullShardSets := n }
  | .parityShards, n => { c with parityShards := n }
  | .recovered, n => { c with recovered := n }
  | .errors, n => { c with errors := n }
  | .shardMin, n => { c with shardMin := n }

/-- Raise one counter, modulo 2^64. -/
def add (c : Counters) (k : Counter) (n : UInt64) : Counters := c.set k (c.get k + n)

/-- The values in the order of a table. -/
def row (c : Counters) : List UInt64 := Counter.columns.map c.get

@[simp] theorem get_set_self (c : Counters) (k : Counter) (n : UInt64) : (c.set k n).get k = n := by
  cases k <;> rfl

theorem get_set_of_ne (c : Counters) {k k' : Counter} (h : k' ≠ k) (n : UInt64) :
    (c.set k n).get k' = c.get k' := by
  cases k <;> cases k' <;> simp_all [set, get]

end Counters

/-- The resources that the senders and receivers of one process have in common. -/
structure Shared where
  /-- The buffers. -/
  pool : BufferPool
  /-- The counters. -/
  counters : Counters

namespace Shared

/-- Raise a counter. -/
def count (s : Shared) (k : Counter) (n : UInt64) : Shared :=
  { s with counters := s.counters.add k n }

/-- Write a gauge. -/
def gauge (s : Shared) (k : Counter) (n : Nat) : Shared :=
  { s with counters := s.counters.set k (UInt64.ofNat n) }

/-- Hand buffers back to the pool. -/
def release (s : Shared) (bs : List Buffer) : Shared :=
  { s with pool := s.pool.releaseAll bs }

end Shared

end PacketFec
