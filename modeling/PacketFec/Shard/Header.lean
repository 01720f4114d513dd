import PacketFec.Bytes
import PacketFec.Error
import PacketFec.Limits
import PacketFec.Shard.Kind

/-!
# Shards and what is in them

A shard starts with a header of six bytes: its sequence id in four and the tag of its kind in two, low
byte first. All behind the header is the body, which the receiver does not interpret. The body of a data
shard is a payload behind a prefix of two bytes that counts itself and the payload. A recovered body is
filled up with zeros to the longest body of its group, so the prefix is the only record of where its payload
ends.
-/

namespace PacketFec

/-- What the first bytes of a shard say. -/
structure Header where
  /-- Place in the sender's sequence. -/
  seqid : UInt32
  /-- Data or parity. -/
  kind : Kind
  deriving DecidableEq

namespace Header

/-- The six bytes of a header. -/
def toBytes (h : Header) : Bytes :=
  Bytes.little 4 h.seqid.toNat ++ Bytes.little 2 h.kind.tag.toNat

/-- Read a header off the front of a buffer. -/
def read (buf : Bytes) : Except Error Header :=
  if buf.length < headerSize then .error (.packetTooShort headerSize buf.length)
  else
    let tag := UInt16.ofNat (Bytes.ofLittle (buf.slice 4 headerSize))
    match Kind.ofTag? tag with
    | some kind => .ok ⟨UInt32.ofNat (Bytes.ofLittle (buf.slice 0 4)), kind⟩
    | none => .error (.unknownShardType tag)

/-- Write a header over the front of a buffer. -/
def write (h : Header) (buf : Bytes) : Except Error Bytes :=
  if buf.length < headerSize then .error (.packetTooShort headerSize buf.length)
  else .ok (buf.overwrite 0 h.toBytes)

@[simp] theorem length_toBytes (h : Header) : h.toBytes.length = headerSize := by
  simp [toBytes, headerSize]

/-- A header reads back from the front of any shard that starts with it. -/
theorem read_toBytes_append (h : Header) (rest : Bytes) : read (h.toBytes ++ rest) = .ok h := by
  have hlen : ¬ (h.toBytes ++ rest).length < headerSize := by simp
  have htag : Bytes.slice (h.toBytes ++ rest) 4 headerSize = Bytes.little 2 h.kind.tag.toNat := by
    simp [Bytes.slice, toBytes, headerSize]
  have hseq : Bytes.slice (h.toBytes ++ rest) 0 4 = Bytes.little 4 h.seqid.toNat := by
    simp [Bytes.slice, toBytes]
  have hk : h.kind.tag.toNat < Nat.pow 256 2 := UInt16.toNat_lt _
  have hs : h.seqid.toNat < Nat.pow 256 4 := UInt32.toNat_lt _
  rw [read, if_neg hlen, htag, hseq, Bytes.ofLittle_little, Bytes.ofLittle_little, Nat.mod_eq_of_lt hk,
    Nat.mod_eq_of_lt hs, UInt16.ofNat_toNat, UInt32.ofNat_toNat]
  simp only [Kind.ofTag?_eq_some_iff.2 rfl]

end Header

/-- A received shard: its bytes and the header that they start with. -/
structure Shard where
  /-- The header. -/
  header : Header
  /-- All bytes, the header included. -/
  bytes : Bytes

namespace Shard

/-- Take a byte string for a shard, if it starts with a header. -/
def parse (bytes : Bytes) : Except Error Shard := do
  return ⟨← Header.read bytes, bytes⟩

/-- Place in the sender's sequence. -/
def seqid (s : Shard) : UInt32 := s.header.seqid

/-- Data or parity. -/
def kind (s : Shard) : Kind := s.header.kind

/-- All behind the header. -/
def body (s : Shard) : Bytes := s.bytes.drop headerSize

end Shard

namespace Frame

/-- A payload behind its length prefix. -/
def encode (payload : Bytes) : Bytes :=
  Bytes.little sizePrefixLength (payload.length + sizePrefixLength) ++ payload

/-- The payload of a body, if the prefix is there and stays within the body. -/
def payload? (body : Bytes) : Option Bytes :=
  let size := Bytes.ofLittle (body.take sizePrefixLength)
  if sizePrefixLength ≤ body.length ∧ sizePrefixLength ≤ size ∧ size ≤ body.length then
    some (body.slice sizePrefixLength size)
  else none

end Frame

end PacketFec
