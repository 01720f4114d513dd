import PacketFec.Geometry

/-!
# Session configuration

The sender and the receiver of a session agree on a geometry, on the room that an outer framing layer keeps
in front of each shard, and on the gap between packets from which a group is stale.
-/

namespace PacketFec

/-- What both ends of a session agree on. -/
structure Config where
  /-- Data and parity shards of a group. -/
  geometry : Geometry
  /-- Bytes in front of the shard header that belong to an outer layer. -/
  headerOffset : Nat
  /-- Gap between packets, in milliseconds, from which a group gets no parity. -/
  staleness : Nat
  deriving DecidableEq

namespace Config

/-- The configuration with a given geometry and nothing else said. -/
def ofGeometry (g : Geometry) : Config := ⟨g, 0, defaultStaleness⟩

/-- The configuration where nothing is said. -/
def standard : Config := ofGeometry ⟨defaultDataShards, defaultParityShards⟩

/-- Accept a valid geometry with room for a shard and a threshold above zero. -/
def validate (c : Config) : Except Error Unit := do
  c.geometry.validate
  if (← Checked.add c.headerOffset framingSize) > mtuLimit then
    throw (.headerOffsetTooLarge c.headerOffset mtuLimit)
  if c.staleness = 0 then throw .zeroStaleness

end Config

end PacketFec
