import Mathlib
import PacketFec.Inspection
import PacketFec.Proofs.Codec
import PacketFec.Proofs.Hexadecimal
import PacketFec.Proofs.ParityRows
import PacketFec.Proofs.Validation

/-!
# Inspecting what a sender puts on the wire

An inspection looks at a text in four stages: the geometry that it is given, the digits of the text, whether there are
bytes at all, and the header. The first stage that objects decides the answer, and a text that passes them all is
described. What is described is what the sender of the shard has meant: its numbers, its kind, where it stands in its
group, and how long its payload is.

* `Inspection.Renders`: the texts of some bytes, with blanks anywhere.
* `Inspection.describe`: what is said of a shard under a geometry.
* `Inspection.Judged`, `Inspection.judged`: the stages, and the answer of each.
* `Inspection.exists_ofText_iff`: the texts that are accepted.
* `Inspection.reads_what_is_sent`: **the answer to any text, and to any text of a shard that a sender has emitted.**
-/

namespace PacketFec.Inspection

variable {text : String} {g : Geometry} {bs : Bytes} {h : Header}

/-- A text of some bytes: two digits for each of them, in either case, and blanks anywhere. -/
def Renders (text : String) (bs : Bytes) : Prop := Hex.Spells (text.toList.filter fun c => !Text.isBlank c) bs

/-- The length of the payload that a body carries. There is none behind a prefix that is wrong, and none in parity. -/
def payloadLength? (kind : Kind) (body : Bytes) : Option ℕ :=
  match kind with
  | .data => (Frame.payload? body).map List.length
  | .parity => none

/-- What is said of a shard with a header and a body, under a geometry that is valid. -/
def describe (g : Geometry) (h : Header) (body : Bytes) : Inspection where
  seqid := h.seqid
  kind := h.kind
  bodyLength := body.length
  payloadLength := payloadLength? h.kind body
  group := h.seqid.toNat / g.total
  position := h.seqid.toNat % g.total
  kindFits := (if h.seqid.toNat % g.total < g.data then Kind.data else .parity) = h.kind

/-- The answer to a text under a geometry, by the first stage that objects. -/
inductive Judged (text : String) (g : Geometry) : Except Failure Inspection → Prop
  /-- The geometry is invalid, whatever the text. -/
  | geometry (hg : ¬ g.Valid) : Judged text g (.error (.invalidGeometry (.invalidShardCount g.data g.parity)))
  /-- The text renders no bytes. -/
  | digits {flaw : Hex.Flaw} (hg : g.Valid) (hno : ∀ bs, ¬ Renders text bs)
      (hflaw : Hex.decode (Text.withoutBlanks text) = .error flaw) : Judged text g (.error (.notHex flaw))
  /-- All of the text is blank. -/
  | empty (hg : g.Valid) (hr : Renders text []) : Judged text g (.error .emptyPacket)
  /-- There are bytes, but too few for a header. -/
  | short {bs : Bytes} (hg : g.Valid) (hr : Renders text bs) (hpos : 0 < bs.length) (hshort : bs.length < headerSize) :
      Judged text g (.error (.badHeader (.packetTooShort headerSize bs.length)))
  /-- The tag in the header announces no kind. -/
  | tag {bs : Bytes} {tag : UInt16} (hg : g.Valid) (hr : Renders text bs) (hlong : headerSize ≤ bs.length)
      (htag : bs.slice 4 headerSize = Bytes.little 2 tag.toNat) (hnone : Kind.ofTag? tag = none) :
      Judged text g (.error (.badHeader (.unknownShardType tag)))
  /-- The text renders a shard. -/
  | shard {bs : Bytes} {h : Header} (hg : g.Valid) (hr : Renders text bs) (hread : Header.read bs = .ok h) :
      Judged text g (.ok (describe g h (bs.drop headerSize)))

/-! ### The texts of some bytes -/

theorem decode_withoutBlanks_iff : Hex.decode (Text.withoutBlanks text) = .ok bs ↔ Renders text bs := by
  rw [Hex.decode_eq_ok_iff, Text.withoutBlanks, String.toList_ofList, Renders]

/-- Every string of bytes has a text, which is the one that is written. -/
theorem renders_encode (bs : Bytes) : Renders (Hex.encode bs) bs := by
  have hdigit : ∀ n : Fin 16, Text.isBlank (Nat.digitChar n) = false ∧
      Text.isBlank (Nat.digitChar n).toUpper = false := by decide
  have hspells := Hex.spells_encode bs
  rw [Renders, List.filter_eq_self.2]
  · exact hspells
  · intro c hc
    obtain ⟨n, hn, rfl | rfl⟩ := hspells.isDigit c hc
    · rw [(hdigit ⟨n, hn⟩).1]
      rfl
    · rw [(hdigit ⟨n, hn⟩).2]
      rfl

theorem bytes_eq_ok_iff : bytes text = .ok bs ↔ Renders text bs ∧ bs ≠ [] := by
  rw [← decode_withoutBlanks_iff, bytes]
  cases Hex.decode (Text.withoutBlanks text) with
  | error flaw => simp
  | ok bs' =>
    cases bs' with
    | nil =>
      simp only [reduceCtorEq, Except.ok.injEq, false_iff, not_and, not_not]
      exact Eq.symm
    | cons b rest =>
      simp only [Except.ok.injEq]
      exact ⟨fun h => ⟨h, h ▸ List.cons_ne_nil b rest⟩, fun h => h.1⟩

/-! ### The stages -/

theorem ofText_of_invalid (hg : ¬ g.Valid) (hfits : g.data + g.parity < wordLimit) :
    ofText text g = .error (.invalidGeometry (.invalidShardCount g.data g.parity)) := by
  have hno : ¬ g.Overflows := fun hover => absurd hover.2.2 (Nat.not_le.2 hfits)
  rw [ofText, Geometry.validate_eq, Checked.outcome_neg hno, Geometry.verdict, if_neg hg]
  rfl

/-- Behind a valid geometry, the bytes decide. -/
theorem ofText_of_bytes {f : Failure} (hg : g.Valid) (hf : bytes text = .error f) : ofText text g = .error f := by
  rw [ofText, Geometry.validate_eq_ok_iff.2 hg, hf]
  rfl

/-- Behind a valid geometry and bytes, the header decides. -/
theorem ofText_of_read {r : Error} (hg : g.Valid) (hr : Renders text bs) (hne : bs ≠ [])
    (hread : Header.read bs = .error r) : ofText text g = .error (.of .badHeader r) := by
  have hparse : Shard.parse bs = .error r := by
    rw [Shard.parse, hread]
    rfl
  rw [ofText, Geometry.validate_eq_ok_iff.2 hg, bytes_eq_ok_iff.2 ⟨hr, hne⟩]
  simp only [Failure.lift, Checked.ok_bind, hparse]
  rfl

/-- **A text that renders a shard is described.** -/
theorem ofText_eq (hg : g.Valid) (hr : Renders text bs) (hread : Header.read bs = .ok h) :
    ofText text g = .ok (describe g h (bs.drop headerSize)) := by
  have hne : bs ≠ [] := by
    rintro rfl
    cases hread
  have hparse : Shard.parse bs = .ok ⟨h, bs⟩ := by
    rw [Shard.parse, hread]
    rfl
  rw [ofText, Geometry.validate_eq_ok_iff.2 hg, bytes_eq_ok_iff.2 ⟨hr, hne⟩]
  simp only [Failure.lift, Checked.ok_bind, hparse, Geometry.groupOf_eq hg, Geometry.size_eq hg,
    Checked.mod_eq (Geometry.total_pos hg), Geometry.kindAt_eq hg]
  rfl

/-- **The answer to any text**: the first stage that objects decides it. -/
theorem judged (text : String) (hfits : g.data + g.parity < wordLimit) : Judged text g (ofText text g) := by
  by_cases hg : g.Valid
  swap
  · rw [ofText_of_invalid hg hfits]
    exact .geometry hg
  cases hdecode : Hex.decode (Text.withoutBlanks text) with
  | error flaw =>
    have hbytes : bytes text = .error (.notHex flaw) := by rw [bytes, hdecode]
    rw [ofText_of_bytes hg hbytes]
    refine .digits hg (fun bs hr => ?_) hdecode
    rw [decode_withoutBlanks_iff.2 hr] at hdecode
    cases hdecode
  | ok bs =>
    have hr := decode_withoutBlanks_iff.1 hdecode
    rcases eq_or_ne bs [] with rfl | hne
    · have hbytes : bytes text = .error .emptyPacket := by rw [bytes, hdecode]
      rw [ofText_of_bytes hg hbytes]
      exact .empty hg hr
    cases hread : Header.read bs with
    | ok h =>
      rw [ofText_eq hg hr hread]
      exact .shard hg hr hread
    | error r =>
      rw [ofText_of_read hg hr hne hread]
      rcases Header.read_error_cases hread with ⟨hshort, rfl⟩ | ⟨tag, hlong, htag, hnone, rfl⟩
      · exact .short hg hr (List.length_pos_iff.2 hne) hshort
      · exact .tag hg hr hlong htag hnone

/-- **The texts that are accepted**: those that render a shard, under a geometry that is valid. -/
theorem exists_ofText_iff (hfits : g.data + g.parity < wordLimit) : (∃ i, ofText text g = .ok i) ↔
    g.Valid ∧ ∃ bs, Renders text bs ∧ headerSize ≤ bs.length ∧
      (bs.slice 4 headerSize = [0xF1, 0x00] ∨ bs.slice 4 headerSize = [0xF2, 0x00]) := by
  constructor
  · rintro ⟨i, hi⟩
    have hjudged := judged text hfits
    rw [hi] at hjudged
    cases hjudged with
    | shard hg hr hread => exact ⟨hg, _, hr, Header.exists_read_iff.1 ⟨_, hread⟩⟩
  · rintro ⟨hg, bs, hr, hheader⟩
    obtain ⟨h, hread⟩ := Header.exists_read_iff.2 hheader
    exact ⟨_, ofText_eq hg hr hread⟩

/-! ### The shards of a sender -/

/-- What is said of a shard that stands where its sender has meant it to. -/
def placed (g : Geometry) (h : Header) (length : ℕ) (payload : Option ℕ) : Inspection where
  seqid := h.seqid
  kind := h.kind
  bodyLength := length - headerSize
  payloadLength := payload
  group := h.seqid.toNat / g.total
  position := h.seqid.toNat % g.total
  kindFits := true

variable {base x offset size n : ℕ} {body packet : Bytes} {e : Encoder}

/-- A shard of the kind that belongs to its place in the stream is described as such. -/
theorem ofText_wireShard {kind : Kind} (hg : g.Valid) (hbase : g.total ∣ base)
    (hkind : kind = if x % g.total < g.data then .data else .parity)
    (hr : Renders text (wireShard g base x kind body)) :
    ofText text g = .ok (placed g ⟨g.seqidAt base x, kind⟩ (wireShard g base x kind body).length
      (payloadLength? kind body)) := by
  have hread : Header.read (wireShard g base x kind body) = .ok ⟨g.seqidAt base x, kind⟩ :=
    Header.read_toBytes_append _ _
  have hdrop : (wireShard g base x kind body).drop headerSize = body := List.drop_left' (Header.length_toBytes _)
  have hlen : (wireShard g base x kind body).length - headerSize = body.length := by
    rw [← List.length_drop, hdrop]
  rw [ofText_eq hg hr hread, hdrop, describe, placed, hlen]
  simp only [Geometry.seqidAt_mod hg hbase, ← hkind, decide_true]

/-- A data shard of a sender, by its number among those of the run. -/
theorem ofText_packet {c : Counters} {staleness now : ℕ} {bodies : List Bytes} {s : Sealed} (hg : g.Valid)
    (hbase : g.total ∣ base) (h : e.Seals g offset size base n bodies c packet staleness now s)
    (hr : Renders text (s.packet.drop offset)) :
    ofText text g = .ok (placed g ⟨g.seqidAt base (g.place (n / g.data) (n % g.data)), .data⟩
      (s.packet.drop offset).length (some (packet.length - (offset + framingSize)))) := by
  have hmod := Nat.mod_lt n hg.data_pos
  have htotal : g.total = g.data + g.parity := rfl
  -- a packet that has been sealed is short enough for its prefix
  have hshort := h.short
  have hpayload := Frame.payload?_encode_append (Frame.length_encode _ ▸ hshort) []
  rw [List.append_nil] at hpayload
  rw [h.drop_packet] at hr ⊢
  have hkind : Kind.data = if g.packetPlace n % g.total < g.data then .data else .parity := by
    rw [Geometry.packetPlace, Geometry.place_mod (by omega), if_pos hmod]
  rw [ofText_wireShard hg hbase hkind hr, payloadLength?, hpayload, Option.map_some, List.length_drop]
  rfl

/-- A parity shard of a sender, by its number behind the packet that completes its group. -/
theorem ofText_parity {c : Counters} {staleness now k : ℕ} {bodies : List Bytes} {s : Sealed} {slice : Bytes}
    (hg : g.Valid) (hbase : g.total ∣ base) (h : e.Seals g offset size base n bodies c packet staleness now s)
    (hk : s.parity[k]? = some slice) (hr : Renders text (slice.drop offset)) :
    ofText text g = .ok (placed g ⟨g.seqidAt base (g.place (n / g.data) (g.data + k)), .parity⟩
      (slice.drop offset).length none) := by
  obtain ⟨-, hlt, hdrop⟩ := h.drop_parity hk
  have htotal : g.total = g.data + g.parity := rfl
  rw [hdrop] at hr ⊢
  refine ofText_wireShard hg hbase ?_ hr
  rw [Geometry.place_mod (by omega), if_neg (by omega)]

/-- **An inspection says what the sender has meant.** It objects to a text in a fixed order, to the geometry, the
digits, the lack of bytes and the header, and accepts exactly the texts that render six bytes or more with a known tag
behind the sequence id, under a geometry that is valid. All bytes have a text, among others the one that is written.
Take any sender, started anywhere, any calls, and a caller that writes what it likes into the parity slices, and any
text, with digits in either case and blanks anywhere, of a shard that this puts on the wire. The text is described with
the number of the shard and its kind, the length of its body, the length of the payload that the caller has given for a
data shard and none for parity, and the group and the position that belong to the number; and the kind fits to the
position. -/
theorem reads_what_is_sent :
    (∀ (text : String) (g : Geometry), g.data + g.parity < wordLimit → Judged text g (ofText text g) ∧
      ((∃ i, ofText text g = .ok i) ↔ g.Valid ∧ ∃ bs, Renders text bs ∧ headerSize ≤ bs.length ∧
        (bs.slice 4 headerSize = [0xF1, 0x00] ∨ bs.slice 4 headerSize = [0xF2, 0x00]))) ∧
    (∀ bs : Bytes, Renders (Hex.encode bs) bs) ∧
    ∀ (g : Geometry) (offset : ℕ) (pool pool' : BufferPool) (e e₀ : Encoder),
      Encoder.create g offset pool = .ok (e, pool') → (e₀ = e ∨ ∃ seqid, e.startAt seqid = .ok e₀) →
      ∀ (counters : Counters) (turns : List Turn) (n : ℕ) (c : Call) (s : Sealed),
        (e₀.served counters turns)[n]? = some (c, s) →
        (∀ text, Renders text (s.packet.drop offset) → ofText text g =
          .ok (placed g ⟨g.seqidAt e₀.next.toNat (g.place (n / g.data) (n % g.data)), .data⟩
            (s.packet.drop offset).length (some (c.packet.length - (offset + framingSize))))) ∧
        ∀ k slice, s.parity[k]? = some slice → ∀ text, Renders text (slice.drop offset) → ofText text g =
          .ok (placed g ⟨g.seqidAt e₀.next.toNat (g.place (n / g.data) (g.data + k)), .parity⟩
            (slice.drop offset).length none) := by
  refine ⟨fun text g hfits => ⟨judged text hfits, exists_ofText_iff hfits⟩, renders_encode, ?_⟩
  intro g offset pool pool' e e₀ hcreate hnew counters turns n c s hn
  have hfollows : e₀.Follows g offset pool.bufferSize e₀.next.toNat [] := by
    rcases hnew with rfl | ⟨seqid, hstart⟩
    · exact Encoder.follows_create hcreate
    · obtain ⟨e₁, hstart₁, hfollows, -⟩ := Encoder.follows_nil hcreate seqid
      obtain rfl := Except.ok.inj (hstart.symm.trans hstart₁)
      exact hfollows
  have hg := hfollows.tracks.valid
  have hbase := hfollows.tracks.aligned
  obtain ⟨e', -, hseals⟩ := (Encoder.served_follow hfollows counters turns).2 n c s hn
  simp only [List.nil_append, List.length_nil, Nat.zero_add] at hseals
  exact ⟨fun text hr => ofText_packet hg hbase hseals hr,
    fun k slice hk text hr => ofText_parity hg hbase hseals hk hr⟩

/-- Two calls, each with two bytes of payload behind one byte of outer framing. -/
def twoTurns : List Turn := List.replicate 2 ⟨⟨List.replicate 9 0 ++ [171, 205], 5, 0⟩, fun _ => []⟩

/-- The second packet of a sender of groups of two that is started at 6, and the parity behind it, are inspected in
texts with blanks and in both cases; and two texts are refused, one for its geometry and one for its digits. -/
theorem reads_what_is_sent_in_blank_text : ∃ e pool' e₀ c s slice,
    Encoder.create ⟨2, 1⟩ 1 (.create 32 8) = .ok (e, pool') ∧ e.startAt 6 = .ok e₀ ∧
    (e₀.served .zero twoTurns)[1]? = some (c, s) ∧ s.parity[0]? = some slice ∧
    Renders " 0700 0000\tF100 0400 aB\nCd " (s.packet.drop 1) ∧
    ofText " 0700 0000\tF100 0400 aB\nCd " ⟨2, 1⟩ = .ok ⟨7, .data, 4, some 2, 2, 1, true⟩ ∧
    Renders "08000000f2000400abcd" (slice.drop 1) ∧
    ofText "08000000f2000400abcd" ⟨2, 1⟩ = .ok ⟨8, .parity, 4, none, 2, 2, true⟩ ∧
    Judged "0" ⟨0, 1⟩ (ofText "0" ⟨0, 1⟩) ∧ Judged "0" ⟨2, 1⟩ (ofText "0" ⟨2, 1⟩) := by
  obtain ⟨e, pool', e₀, hcreate, hstart, hserved⟩ : ∃ e pool' e₀,
      Encoder.create ⟨2, 1⟩ 1 (.create 32 8) = .ok (e, pool') ∧ e.startAt 6 = .ok e₀ ∧
      (e₀.served .zero twoTurns)[1]?.map (fun a => (e₀.next, a.1.packet.length, a.2.packet.drop 1, a.2.parity)) =
        some (6, 11, [7, 0, 0, 0, 0xF1, 0, 4, 0, 171, 205], [[0, 8, 0, 0, 0, 0xF2, 0, 4, 0, 171, 205]]) :=
    ⟨_, _, _, rfl, rfl, by decide +kernel⟩
  obtain ⟨⟨c, s⟩, hs, heq⟩ := Option.map_eq_some_iff.1 hserved
  simp only [Prod.mk.injEq] at heq
  obtain ⟨hnext, hlen, hpacket, hparity⟩ := heq
  obtain ⟨hjudged, -, hsent⟩ := reads_what_is_sent
  obtain ⟨hdata, hslices⟩ := hsent ⟨2, 1⟩ 1 _ _ e e₀ hcreate (.inr ⟨6, hstart⟩) .zero twoTurns 1 c s hs
  have hslice : s.parity[0]? = some [0, 8, 0, 0, 0, 0xF2, 0, 4, 0, 171, 205] := by rw [hparity]; rfl
  have hr : Renders " 0700 0000\tF100 0400 aB\nCd " (s.packet.drop 1) := by
    rw [hpacket]
    exact decode_withoutBlanks_iff.1 (by rfl)
  have hr' : Renders "08000000f2000400abcd" [8, 0, 0, 0, 0xF2, 0, 4, 0, 171, 205] :=
    decode_withoutBlanks_iff.1 (by rfl)
  refine ⟨e, pool', e₀, c, s, _, hcreate, hstart, hs, hslice, hr, ?_, hr', ?_, (hjudged "0" ⟨0, 1⟩ (by decide)).1,
    (hjudged "0" ⟨2, 1⟩ (by decide)).1⟩
  · rw [hdata _ hr, hpacket, hnext, hlen]
    rfl
  · rw [hslices 0 _ hslice _ hr', hnext]
    rfl

end PacketFec.Inspection
