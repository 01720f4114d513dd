/-!
# The two kinds of shard
-/

namespace PacketFec

/-- What a shard carries. -/
inductive Kind where
  /-- A payload of the transport. -/
  | data
  /-- Redundancy computed over the data shards of a group. -/
  | parity
  deriving DecidableEq

namespace Kind

/-- The tag that announces a kind on the wire. -/
def tag : Kind → UInt16
  | data => 0xF1
  | parity => 0xF2

/-- The kind that a tag announces, if any. -/
def ofTag? (tag : UInt16) : Option Kind :=
  if tag = 0xF1 then some data else if tag = 0xF2 then some parity else none

/-- Whether the kind is data. -/
def isData : Kind → Bool
  | data => true
  | parity => false

/-- The name of a kind in text and in JSON. -/
def name : Kind → String
  | data => "Data"
  | parity => "Parity"

/-- A tag announces a kind exactly when it is the tag of that kind. -/
theorem ofTag?_eq_some_iff {t : UInt16} {k : Kind} : ofTag? t = some k ↔ t = k.tag := by
  unfold ofTag?
  cases k <;> simp only [tag] <;> split <;> (try split) <;> simp_all

end Kind

end PacketFec
