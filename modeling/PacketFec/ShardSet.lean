import PacketFec.BufferPool
import PacketFec.Error

/-!
# Shard sets

A receiver keeps the shards of one group in a shard set, each in the slot of its position. A set that has
been drained stays behind without members, to absorb the stragglers of its group. Sets are found by the id
of their group.
-/

namespace PacketFec

/-- The shards of one group that have come in. -/
structure ShardSet where
  /-- The shard at each position of the group. -/
  slots : List (Option Buffer)
  /-- Shards held. -/
  members : Nat
  /-- Whether the members have been taken out. -/
  drained : Bool

namespace ShardSet

/-- A set without members. -/
def empty (size : Nat) : ShardSet := ⟨List.replicate size none, 0, false⟩

/-- Whether the set absorbs a shard at a position: its members have been taken out, or the position is
filled. -/
def absorbs (s : ShardSet) (position : Nat) : Except Error Bool :=
  if s.drained then .ok true
  else match s.slots[position]? with
    | none => .error .outOfRange
    | some slot => .ok slot.isSome

/-- The set with a shard at a position. -/
def insert (s : ShardSet) (position : Nat) (b : Buffer) : ShardSet :=
  { s with slots := s.slots.set position (some b), members := s.members + 1 }

/-- The set without its members. -/
def drain (s : ShardSet) : ShardSet := ⟨List.replicate s.slots.length none, 0, true⟩

/-- The buffers held. -/
def buffers (s : ShardSet) : List Buffer := s.slots.filterMap id

end ShardSet

/-- Shard sets by group id. -/
abbrev SetTable := List (Nat × ShardSet)

namespace SetTable

/-- The set of a group. -/
def get? (t : SetTable) (group : Nat) : Option ShardSet := t.lookup group

/-- The table with the set of a group replaced, or added where there is none. -/
def put (t : SetTable) (group : Nat) (s : ShardSet) : SetTable :=
  match t with
  | [] => [(group, s)]
  | (g, old) :: rest => if g = group then (g, s) :: rest else (g, old) :: put rest group s

/-- The buffers held in all sets. -/
def buffers (t : SetTable) : List Buffer := t.flatMap fun entry => entry.2.buffers

end SetTable

end PacketFec
