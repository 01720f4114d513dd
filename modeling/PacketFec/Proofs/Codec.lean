import Mathlib
import PacketFec.Shard.Header

/-!
# What is written reads back

Headers and framed payloads are written at the front of a buffer and read off the front of another one. For both there
is one relation between a buffer and what it starts with, and reading decides it: the buffer starts with the bytes that
writing puts there. The shard header is a bijection between headers and strings of six bytes that end in a known tag. A
length prefix counts itself, so a payload of more than 65533 bytes has none, and whatever stands behind the payload
does not matter.

* `Header.read_eq_ok_iff`: a header is read exactly off a buffer that starts with its bytes.
* `Header.read_eq_unknown_iff`: the tags that are refused.
* `Header.stamp`, `Header.stamp_short`, `Header.stamp_long`: writing a header where the buffer stands, word by word.
* `Header.codec`: **both directions of the header codec, and all refusals.**
* `Frame.payload?_eq_some_iff`: **a body has a payload exactly when it starts with the frame of that payload.**
-/

namespace PacketFec

namespace Bytes

variable {bs : Bytes} {a b : ℕ}

theorem length_slice (h : b ≤ bs.length) : (bs.slice a b).length = b - a := by
  rw [slice, List.length_take, List.length_drop]
  omega

/-- A prefix is cut in two at any place. -/
theorem take_append_slice (bs : Bytes) (h : a ≤ b) : bs.take a ++ bs.slice a b = bs.take b := by
  rw [slice, ← List.take_add, Nat.add_sub_cancel' h]

theorem slice_zero (bs : Bytes) (b : ℕ) : bs.slice 0 b = bs.take b := by simp [slice]

/-- Four bytes are the form of a word of 32 bits. -/
theorem little_ofLittle_32 (h : bs.length = 4) : little 4 (UInt32.ofNat (ofLittle bs)).toNat = bs := by
  have hlt := ofLittle_lt bs
  have hback := little_ofLittle bs
  rw [h] at hlt hback
  rw [UInt32.toNat_ofNat_of_lt' hlt, hback]

/-- Two bytes are the form of a word of 16 bits. -/
theorem little_ofLittle_16 (h : bs.length = 2) : little 2 (UInt16.ofNat (ofLittle bs)).toNat = bs := by
  have hlt := ofLittle_lt bs
  have hback := little_ofLittle bs
  rw [h] at hlt hback
  rw [UInt16.toNat_ofNat_of_lt' hlt, hback]

/-- Each word of 16 bits has a form of its own. -/
theorem ofNat_ofLittle_little_16 (tag : UInt16) : UInt16.ofNat (ofLittle (little 2 tag.toNat)) = tag := by
  have hlt : tag.toNat < Nat.pow 256 2 := tag.toNat_lt
  rw [ofLittle_little, Nat.mod_eq_of_lt hlt, UInt16.ofNat_toNat]

/-- Writing behind some bytes of a buffer. -/
theorem overwrite_append (front rest part : Bytes) :
    (front ++ rest).overwrite front.length part = front ++ part ++ rest.drop part.length := by
  rw [overwrite, List.take_left, ← List.drop_drop, List.drop_left]

theorem overwrite_zero (bs part : Bytes) : bs.overwrite 0 part = part ++ bs.drop part.length := by
  simp [overwrite]

end Bytes

/-! ### Statements -/

namespace Statement

variable {σ α β : Type} {x : EStateM Error σ α} {f : α → EStateM Error σ β} {s s' : σ} {a : α} {r : Error}

theorem bind_ok (h : x s = .ok a s') : (x >>= f) s = f a s' := by
  show EStateM.bind x f s = f a s'
  rw [EStateM.bind, h]

theorem bind_error (h : x s = .error r s') : (x >>= f) s = .error r s' := by
  show EStateM.bind x f s = .error r s'
  rw [EStateM.bind, h]

end Statement

/-! ### Headers -/

namespace Header

variable {h : Header} {buf : Bytes} {tag : UInt16}

/-- A buffer starts with a header where its first six bytes are those of the header. -/
theorem toBytes_prefix_iff (hlen : headerSize ≤ buf.length) : h.toBytes <+: buf ↔ buf.take headerSize = h.toBytes := by
  have hsize := length_toBytes h
  constructor
  · rintro ⟨rest, rfl⟩
    exact List.take_left' hsize
  · intro heq
    rw [← heq]
    exact List.take_prefix _ _

/-- **A header is read exactly off a buffer that starts with its bytes.** -/
theorem read_eq_ok_iff : read buf = .ok h ↔ h.toBytes <+: buf := by
  constructor
  · intro hread
    unfold read at hread
    split at hread
    · simp at hread
    rename_i hlong
    rw [Nat.not_lt] at hlong
    simp only at hread
    split at hread
    · rename_i kind hkind
      have htag := Kind.ofTag?_eq_some_iff.1 hkind
      have hseq : (buf.slice 0 4).length = 4 := Bytes.length_slice (le_trans (by decide) hlong)
      have hlow : (buf.slice 4 headerSize).length = 2 := Bytes.length_slice hlong
      obtain rfl := Except.ok.inj hread
      rw [toBytes_prefix_iff hlong, toBytes, ← htag, Bytes.little_ofLittle_32 hseq, Bytes.little_ofLittle_16 hlow,
        Bytes.slice_zero]
      exact (Bytes.take_append_slice buf (by decide)).symm
    · simp at hread
  · rintro ⟨rest, rfl⟩
    exact read_toBytes_append h rest

theorem read_short (hshort : buf.length < headerSize) :
    read buf = .error (.packetTooShort headerSize buf.length) := if_pos hshort

/-- **A tag is refused exactly where it stands behind the sequence id and announces no kind.** -/
theorem read_eq_unknown_iff : read buf = .error (.unknownShardType tag) ↔
    headerSize ≤ buf.length ∧ buf.slice 4 headerSize = Bytes.little 2 tag.toNat ∧ Kind.ofTag? tag = none := by
  by_cases hshort : buf.length < headerSize
  · rw [read_short hshort]
    simp [Nat.not_le.2 hshort]
  have hlong := Nat.not_lt.1 hshort
  have hlow : (buf.slice 4 headerSize).length = 2 := Bytes.length_slice hlong
  have hback := Bytes.little_ofLittle_16 hlow
  rw [read, if_neg hshort]
  constructor
  · intro hread
    simp only at hread
    split at hread
    · simp at hread
    · rename_i hnone
      obtain rfl := Error.unknownShardType.inj (Except.error.inj hread)
      exact ⟨hlong, hback.symm, hnone⟩
  · rintro ⟨-, hslice, hnone⟩
    rw [hslice, Bytes.ofNat_ofLittle_little_16]
    simp only [hnone]

/-- **The two refusals.** A buffer from which no header is read is too short for one, or its tag announces no kind. -/
theorem read_error_cases {r : Error} (hread : read buf = .error r) :
    buf.length < headerSize ∧ r = .packetTooShort headerSize buf.length ∨
      ∃ tag : UInt16, headerSize ≤ buf.length ∧ buf.slice 4 headerSize = Bytes.little 2 tag.toNat ∧
        Kind.ofTag? tag = none ∧ r = .unknownShardType tag := by
  by_cases hshort : buf.length < headerSize
  · rw [read_short hshort] at hread
    exact .inl ⟨hshort, (Except.error.inj hread).symm⟩
  have hunknown : ∃ tag, r = .unknownShardType tag := by
    rw [read, if_neg hshort] at hread
    simp only at hread
    split at hread
    · cases hread
    · exact ⟨_, (Except.error.inj hread).symm⟩
  obtain ⟨tag, rfl⟩ := hunknown
  obtain ⟨hlong, htag, hnone⟩ := read_eq_unknown_iff.1 hread
  exact .inr ⟨tag, hlong, htag, hnone, rfl⟩

/-- A header is read exactly where one of the two tags stands behind the sequence id. -/
theorem exists_read_iff : (∃ h, read buf = .ok h) ↔
    headerSize ≤ buf.length ∧ (buf.slice 4 headerSize = [0xF1, 0x00] ∨ buf.slice 4 headerSize = [0xF2, 0x00]) := by
  constructor
  · rintro ⟨h, hread⟩
    obtain ⟨rest, rfl⟩ := read_eq_ok_iff.1 hread
    have hslice : Bytes.slice (h.toBytes ++ rest) 4 headerSize = Bytes.little 2 h.kind.tag.toNat := by
      simp [Bytes.slice, toBytes, headerSize]
    refine ⟨by simp, ?_⟩
    rw [hslice]
    cases h.kind with
    | data => exact .inl rfl
    | parity => exact .inr rfl
  · rintro ⟨hlong, htag⟩
    have hread : ∀ kind : Kind, buf.slice 4 headerSize = Bytes.little 2 kind.tag.toNat → ∃ h, read buf = .ok h := by
      intro kind hslice
      rw [read, if_neg (Nat.not_lt.2 hlong), hslice, Bytes.ofNat_ofLittle_little_16]
      simp [Kind.ofTag?_eq_some_iff.2 rfl]
    rcases htag with hdata | hparity
    · exact hread .data hdata
    · exact hread .parity hparity

theorem write_eq (h : Header) (hlong : headerSize ≤ buf.length) :
    h.write buf = .ok (h.toBytes ++ buf.drop headerSize) := by
  rw [write, if_neg (Nat.not_lt.2 hlong), Bytes.overwrite_zero, length_toBytes]

theorem write_short (h : Header) (hshort : buf.length < headerSize) :
    h.write buf = .error (.packetTooShort headerSize buf.length) := if_pos hshort

/-! ### Writing a header where the buffer stands -/

/-- Refuse a buffer without room for a header. -/
def checkRoom : EStateM Error Bytes Unit := fun buf =>
  if buf.length < headerSize then .error (.packetTooShort headerSize buf.length) buf else .ok () buf

/-- Put some bytes into a buffer where it stands. They must have room there. -/
def putAt (start : ℕ) (part : Bytes) : EStateM Error Bytes Unit := fun buf =>
  if buf.length < start + part.length then .error .outOfRange buf else .ok () (buf.overwrite start part)

/-- Write a header over the front of a buffer where it stands: the sequence id, and then the tag. An error leaves the
buffer as far as the writing has come. -/
def stamp (h : Header) : EStateM Error Bytes Unit := do
  checkRoom
  putAt 0 (Bytes.little 4 h.seqid.toNat)
  putAt 4 (Bytes.little 2 h.kind.tag.toNat)

/-- A buffer that is too short is left alone. -/
theorem stamp_short (h : Header) (hshort : buf.length < headerSize) :
    h.stamp buf = .error (.packetTooShort headerSize buf.length) buf := by
  rw [stamp]
  exact Statement.bind_error (if_pos hshort)

theorem putAt_eq {start : ℕ} {part : Bytes} (hroom : start + part.length ≤ buf.length) :
    putAt start part buf = .ok () (buf.overwrite start part) := if_neg (Nat.not_lt.2 hroom)

/-- **Writing in place.** The two words together are the header, and nothing behind it changes. -/
theorem stamp_long (h : Header) (hlong : headerSize ≤ buf.length) :
    h.stamp buf = .ok () (h.toBytes ++ buf.drop headerSize) := by
  set seqid := Bytes.little 4 h.seqid.toNat
  set tag := Bytes.little 2 h.kind.tag.toNat
  have hfour : seqid.length = 4 := Bytes.length_little _ _
  have htwo : tag.length = 2 := Bytes.length_little _ _
  have hsix : headerSize = 6 := rfl
  have hfirst : putAt 0 seqid buf = .ok () (seqid ++ buf.drop 4) := by
    rw [putAt_eq (by omega), Bytes.overwrite_zero, hfour]
  have hsecond : putAt 4 tag (seqid ++ buf.drop 4) = .ok () (seqid ++ tag ++ buf.drop headerSize) := by
    have hover := Bytes.overwrite_append seqid (buf.drop 4) tag
    rw [hfour, htwo, List.drop_drop] at hover
    rw [putAt_eq (by rw [List.length_append, List.length_drop]; omega), hover]
    rfl
  have hroom : checkRoom buf = .ok () buf := if_neg (Nat.not_lt.2 hlong)
  rw [stamp, Statement.bind_ok hroom, Statement.bind_ok hfirst, hsecond]
  rfl

/-! ### The codec -/

/-- **The header codec is a bijection on its grammar.** What is written into a buffer of six bytes or more reads back,
and the bytes behind it stay. A header is read exactly where one of the two tags stands behind the sequence id, and then
it writes the bytes that it was read from. A buffer that is too short is refused by both, and writing leaves it as it
was; any other tag is refused and named. -/
theorem codec :
    (∀ (h : Header) (buf : Bytes), headerSize ≤ buf.length → ∃ out, h.stamp buf = .ok () out ∧ h.write buf = .ok out ∧
      read out = .ok h ∧ out.length = buf.length ∧ out.drop headerSize = buf.drop headerSize) ∧
    (∀ buf : Bytes, (∃ h, read buf = .ok h) ↔ headerSize ≤ buf.length ∧
      (buf.slice 4 headerSize = [0xF1, 0x00] ∨ buf.slice 4 headerSize = [0xF2, 0x00])) ∧
    (∀ (buf : Bytes) (h : Header), read buf = .ok h → ∀ other : Bytes, headerSize ≤ other.length →
      ∃ out, h.stamp other = .ok () out ∧ h.write other = .ok out ∧ out.take headerSize = buf.take headerSize) ∧
    (∀ (h : Header) (buf : Bytes), buf.length < headerSize →
      read buf = .error (.packetTooShort headerSize buf.length) ∧
      h.write buf = .error (.packetTooShort headerSize buf.length) ∧
      h.stamp buf = .error (.packetTooShort headerSize buf.length) buf) ∧
    ∀ (buf : Bytes) (tag : UInt16), headerSize ≤ buf.length → buf.slice 4 headerSize = Bytes.little 2 tag.toNat →
      tag ≠ 0xF1 → tag ≠ 0xF2 → read buf = .error (.unknownShardType tag) := by
  refine ⟨?_, fun buf => exists_read_iff, ?_, ?_, ?_⟩
  · intro h buf hlong
    have hsize := length_toBytes h
    refine ⟨_, stamp_long h hlong, write_eq h hlong, read_toBytes_append h _, ?_, List.drop_left' hsize⟩
    rw [List.length_append, List.length_drop, hsize, Nat.add_sub_cancel' hlong]
  · intro buf h hread other hlong
    have hstarts := read_eq_ok_iff.1 hread
    refine ⟨_, stamp_long h hlong, write_eq h hlong, ?_⟩
    rw [List.take_left' (length_toBytes h)]
    exact ((toBytes_prefix_iff (length_toBytes h ▸ hstarts.length_le)).1 hstarts).symm
  · intro h buf hshort
    exact ⟨read_short hshort, write_short h hshort, stamp_short h hshort⟩
  · intro buf tag hlong hslice hdata hparity
    have hnone : Kind.ofTag? tag = none := by
      rw [Kind.ofTag?, if_neg hdata, if_neg hparity]
    exact read_eq_unknown_iff.2 ⟨hlong, hslice, hnone⟩

/-- A header is written over the front of eight bytes and read back, another one is read off a packet and written into
such a buffer, and one byte too few or a tag of neither kind is refused. -/
theorem codec_of_few_bytes :
    (∃ out, stamp ⟨0x01020304, .parity⟩ (List.replicate 8 7) = .ok () out ∧ read out = .ok ⟨0x01020304, .parity⟩ ∧
      out.drop headerSize = [7, 7]) ∧
    (∃ h out, read [9, 0, 0, 0, 0xF1, 0x00, 5] = .ok h ∧ h.write (List.replicate 6 7) = .ok out ∧
      out.take headerSize = [9, 0, 0, 0, 0xF1, 0x00]) ∧
    stamp ⟨0x01020304, .parity⟩ [1, 2, 3, 4, 5] = .error (.packetTooShort 6 5) [1, 2, 3, 4, 5] ∧
    read [1, 0, 0, 0, 0x33, 0x01] = .error (.unknownShardType 0x133) := by
  obtain ⟨hwrite, hread, hback, hshort, hunknown⟩ := codec
  obtain ⟨out, hstamp, -, hsame, -, hrest⟩ := hwrite ⟨0x01020304, .parity⟩ (List.replicate 8 7) (by decide)
  obtain ⟨h, hh⟩ := (hread [9, 0, 0, 0, 0xF1, 0x00, 5]).2 ⟨by decide, .inl (by decide)⟩
  obtain ⟨out', -, hwritten, hfirst⟩ := hback _ h hh (List.replicate 6 7) (by decide)
  exact ⟨⟨out, hstamp, hsame, hrest⟩, ⟨h, out', hh, hwritten, hfirst⟩, (hshort _ [1, 2, 3, 4, 5] (by decide)).2.2,
    hunknown _ 0x133 (by decide) (by decide) (by decide) (by decide)⟩

end Header

/-! ### Framed payloads -/

namespace Frame

variable {body payload : Bytes}

theorem length_encode (payload : Bytes) : (encode payload).length = payload.length + sizePrefixLength := by
  rw [encode, List.length_append, Bytes.length_little, Nat.add_comm]

/-- The prefix of a frame says its length, where two bytes can. -/
theorem size_of_encode (hsaid : payload.length + sizePrefixLength < sizePrefixLimit) (rest : Bytes) :
    Bytes.ofLittle ((encode payload ++ rest).take sizePrefixLength) = payload.length + sizePrefixLength := by
  rw [encode, List.append_assoc, List.take_left' (Bytes.length_little _ _), Bytes.ofLittle_little]
  exact Nat.mod_eq_of_lt hsaid

/-- A frame with anything behind it gives back the payload. -/
theorem payload?_encode_append (hsaid : payload.length + sizePrefixLength < sizePrefixLimit) (rest : Bytes) :
    payload? (encode payload ++ rest) = some payload := by
  have hlen := length_encode payload
  unfold payload?
  simp only [size_of_encode hsaid]
  rw [if_pos (by rw [List.length_append]; omega), Bytes.slice, encode, List.append_assoc,
    List.drop_left' (Bytes.length_little _ _), Nat.add_sub_cancel, List.take_left' rfl]

/-- A body from which a payload is read starts with the frame of the payload. -/
theorem eq_encode_append (h : payload? body = some payload) :
    payload.length + sizePrefixLength < sizePrefixLimit ∧ ∃ rest, body = encode payload ++ rest := by
  unfold payload? at h
  simp only at h
  set size := Bytes.ofLittle (body.take sizePrefixLength) with hsize
  split at h
  · rename_i hfits
    obtain ⟨hlong, hleast, hmost⟩ := hfits
    have htwo : (body.take sizePrefixLength).length = 2 := List.length_take_of_le hlong
    have hlt : size < Nat.pow 256 2 := htwo ▸ Bytes.ofLittle_lt (body.take sizePrefixLength)
    obtain rfl := Option.some.inj h
    have hlen : (body.slice sizePrefixLength size).length + sizePrefixLength = size := by
      rw [Bytes.length_slice hmost, Nat.sub_add_cancel hleast]
    refine ⟨by rw [hlen]; exact hlt, body.drop size, ?_⟩
    -- the prefix is the form of the size that it says
    have hform : Bytes.little sizePrefixLength size = body.take sizePrefixLength := by
      rw [hsize]
      nth_rewrite 2 [← Bytes.little_ofLittle (body.take sizePrefixLength)]
      rw [htwo]
      rfl
    rw [encode, hlen, hform, Bytes.take_append_slice body hleast, List.take_append_drop]
  · simp at h

/-- **A body has a payload exactly when it starts with the frame of that payload.** -/
theorem payload?_eq_some_iff : payload? body = some payload ↔
    payload.length + sizePrefixLength < sizePrefixLimit ∧ encode payload <+: body := by
  constructor
  · intro h
    obtain ⟨hsaid, rest, rfl⟩ := eq_encode_append h
    exact ⟨hsaid, List.prefix_append _ _⟩
  · rintro ⟨hsaid, rest, rfl⟩
    exact payload?_encode_append hsaid rest

end Frame

end PacketFec
