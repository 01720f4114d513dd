import PacketFec.Failure
import PacketFec.Geometry
import PacketFec.Hex
import PacketFec.Shard.Header

/-!
# Inspecting one shard

A shard given as hexadecimal text, with blanks anywhere, is described by what its header says and by where a
geometry places it. Blank are the characters with the Unicode property White_Space.
-/

namespace PacketFec

namespace Text

/-- The code points with the property White_Space, as ranges. -/
def blankRanges : List (Nat × Nat) :=
  [(0x9, 0xD), (0x20, 0x20), (0x85, 0x85), (0xA0, 0xA0), (0x1680, 0x1680), (0x2000, 0x200A),
    (0x2028, 0x2029), (0x202F, 0x202F), (0x205F, 0x205F), (0x3000, 0x3000)]

/-- Whether a character is blank. -/
def isBlank (c : Char) : Bool := blankRanges.any fun (low, high) => low ≤ c.toNat && c.toNat ≤ high

/-- A text without its blanks. -/
def withoutBlanks (s : String) : String := String.ofList (s.toList.filter fun c => !isBlank c)

end Text

/-- What one shard says, and where a geometry places it. -/
structure Inspection where
  /-- Place in the sender's sequence. -/
  seqid : UInt32
  /-- Data or parity. -/
  kind : Kind
  /-- Bytes behind the header. -/
  bodyLength : Nat
  /-- Bytes of the payload, of a data shard whose length prefix is right. -/
  payloadLength : Option Nat
  /-- The group of the shard. -/
  group : Nat
  /-- The position in the group. -/
  position : Nat
  /-- Whether the kind is the one that belongs to the position. -/
  kindFits : Bool

namespace Inspection

/-- The bytes of a hexadecimal text with blanks. -/
def bytes (text : String) : Except Failure Bytes :=
  match Hex.decode (Text.withoutBlanks text) with
  | .error flaw => .error (.notHex flaw)
  | .ok [] => .error .emptyPacket
  | .ok bs => .ok bs

/-- Describe the shard in a hexadecimal text under a geometry. -/
def ofText (text : String) (g : Geometry) : Except Failure Inspection := do
  Failure.lift .invalidGeometry g.validate
  let shard ← Failure.lift .badHeader (Shard.parse (← bytes text))
  let payloadLength := match shard.kind with
    | .data => (Frame.payload? shard.body).map List.length
    | .parity => none
  let group ← Failure.lift .fault (g.groupOf shard.seqid)
  let position ← Failure.lift .fault (do Checked.mod shard.seqid.toNat (← g.size))
  let kind ← Failure.lift .fault (g.kindAt shard.seqid)
  return ⟨shard.seqid, shard.kind, shard.body.length, payloadLength, group, position, kind = shard.kind⟩

end Inspection

end PacketFec
