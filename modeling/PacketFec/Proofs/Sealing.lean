import Mathlib
import PacketFec.Encoder
import PacketFec.Proofs.Codec
import PacketFec.Proofs.GroupShards
import PacketFec.Proofs.Numbering

/-!
# What a sender does with one packet

A sender that has sealed `n` packets stands at packet `n % D` of group `n / D` and keeps the bodies of the
packets of that group. `Encoder.Tracks` says how its state holds this; sealing a packet keeps it.

* `Encoder.tracks_create`, `Encoder.tracks_startAt`: a new sender has sealed nothing.
* `Encoder.protect_eq`: the parity of a full group, which the code never refuses.
* `Encoder.encode_tracks`: **what sealing a packet gives, and the state behind it.**
-/

namespace PacketFec

namespace ScratchSlot

/-- Filling a slot up to `stop` fills up the body in it. -/
theorem slice_pad {s : ScratchSlot} {start stop : ℕ} (h1 : start ≤ s.used) (h2 : s.used ≤ stop)
    (h3 : stop ≤ s.buffer.bytes.length) :
    (s.pad stop).buffer.bytes.slice start stop = (s.buffer.bytes.slice start s.used).resize (stop - start) 0 := by
  set body := s.buffer.bytes.slice start s.used with hb
  have hbody : body.length = s.used - start := by
    rw [hb, Bytes.slice, List.length_take, List.length_drop]; omega
  have hzeros : (Bytes.zeros (stop - s.used)).length = stop - s.used := Bytes.length_zeros _
  calc (s.pad stop).buffer.bytes.slice start stop
      = (body ++ (Bytes.zeros (stop - s.used) ++
          s.buffer.bytes.drop (s.used + (Bytes.zeros (stop - s.used)).length))).take (stop - start) := by
        have hlen : (s.buffer.bytes.take s.used).length = s.used := by rw [List.length_take]; omega
        unfold pad write Buffer.hold
        simp only [Bytes.slice, Bytes.overwrite, List.append_assoc]
        rw [List.drop_append_of_le_length (by omega), hb, Bytes.slice, List.drop_take]
    _ = body ++ Bytes.zeros (stop - s.used) := by
        rw [← List.append_assoc]
        exact List.take_left' (by rw [List.length_append]; omega)
    _ = body.resize (stop - start) 0 := by
        rw [Bytes.resize, Bytes.zeros, List.take_of_length_le (by omega), hbody]
        congr 2
        omega

theorem length_write {s : ScratchSlot} {start : ℕ} {part : Bytes}
    (h : start + part.length ≤ s.buffer.bytes.length) :
    (s.write start part).buffer.bytes.length = s.buffer.bytes.length := Bytes.length_overwrite h

/-- What is written into a slot is found there. -/
theorem slice_write {s : ScratchSlot} {start : ℕ} {part : Bytes} (h : start ≤ s.buffer.bytes.length) :
    (s.write start part).buffer.bytes.slice start (start + part.length) = part := by
  unfold write Buffer.hold Bytes.slice
  rw [Bytes.drop_overwrite h, Nat.add_sub_cancel_left, List.take_left' rfl]

/-- A shard written into a slot, body first and header over it, is found behind the offset. -/
theorem drop_take_write {s : ScratchSlot} {offset w : ℕ} (header : Header) {body : Bytes}
    (hw : body.length = w) (h : offset + headerSize + w ≤ s.buffer.bytes.length) :
    (((s.write (offset + headerSize) body).write offset header.toBytes).buffer.bytes.take
      (offset + headerSize + w)).drop offset = header.toBytes ++ body := by
  have hh := Header.length_toBytes header
  have h1 : offset ≤ (s.buffer.bytes.overwrite (offset + headerSize) body).length := by
    rw [Bytes.length_overwrite (by omega)]; omega
  unfold write Buffer.hold
  simp only [List.drop_take]
  rw [Bytes.drop_overwrite h1, hh, Bytes.drop_overwrite (by omega), ← List.append_assoc]
  exact List.take_left' (by rw [List.length_append]; omega)

/-- Padding a slot that reaches far enough keeps its length. -/
theorem length_pad {s : ScratchSlot} {stop : ℕ} (h1 : s.used ≤ stop) (h2 : stop ≤ s.buffer.bytes.length) :
    (s.pad stop).buffer.bytes.length = s.buffer.bytes.length :=
  length_write (by rw [Bytes.length_zeros]; omega)

end ScratchSlot

namespace Encoder

variable {g : Geometry} {offset size base n : ℕ} {bodies : List Bytes} {e : Encoder}

/-- What never changes in a sender, and the sizes of its scratch slots. -/
structure Framed (e : Encoder) (g : Geometry) (offset size : ℕ) : Prop where
  valid : g.Valid
  room : offset + framingSize ≤ size
  geometry_eq : e.geometry = g
  ceiling_eq : e.ceiling = g.ceiling
  offset_eq : e.offset = offset
  slotSize_eq : e.slotSize = size
  slots : e.scratch.length = g.total
  slot : ∀ s ∈ e.scratch, s.buffer.bytes.length = size

/-- The scratch slots hold the bodies of the current group. -/
structure Holds (e : Encoder) (g : Geometry) (offset size : ℕ) (bodies : List Bytes) : Prop
    extends e.Framed g offset size where
  count_eq : e.count = bodies.length
  longest_eq : e.longest = if bodies = [] then 0 else offset + headerSize + width bodies
  fits : offset + headerSize + width bodies ≤ size
  kept : ∀ (i : ℕ) (b : Bytes), bodies[i]? = some b → ∃ s : ScratchSlot, e.scratch[i]? = some s ∧
    s.used = offset + headerSize + b.length ∧ s.buffer.bytes.slice (offset + headerSize) s.used = b

/-- **The state of a sender** that has sealed `n` packets: it holds the bodies of the current group, and its
numbering stands at the next packet. -/
structure Tracks (e : Encoder) (g : Geometry) (offset size base n : ℕ) (bodies : List Bytes) : Prop
    extends e.Holds g offset size bodies where
  aligned : g.total ∣ base
  held : bodies.length = n % g.data
  next_eq : e.next = g.seqidAt base (g.packetPlace n)

/-- At the start of a group no body is held. -/
theorem Framed.holds_nil (h : e.Framed g offset size) (hc : e.count = 0) (hl : e.longest = 0) :
    e.Holds g offset size [] :=
  { h with
    count_eq := hc
    longest_eq := hl
    fits := by
      have := h.room
      unfold framingSize at this
      simp only [width, List.map_nil, List.foldl_nil]
      omega
    kept := nofun }

/-! ### A new sender -/

theorem create_spec {pool pool' : BufferPool} (h : create g offset pool = .ok (e, pool')) :
    g.Valid ∧ offset + framingSize ≤ pool.bufferSize ∧
      e = { geometry := g, ceiling := g.ceiling, next := 0, offset, slotSize := pool.bufferSize,
            scratch := (pool.acquireMany g.total).1.map (⟨·, 0⟩), count := 0, longest := 0, latest := none } := by
  unfold create at h
  obtain ⟨_, hg, h⟩ := Checked.bind_eq_ok.1 h
  have hg := Geometry.validate_eq_ok_iff.1 hg
  obtain ⟨a, ha, h⟩ := Checked.bind_eq_ok.1 h
  obtain ⟨framed, hf, h⟩ := Checked.bind_eq_ok.1 h
  have hsum : framed = offset + framingSize := by
    rw [Checked.eq_add hf, Checked.eq_add ha, Nat.add_assoc]
    rfl
  split at h
  · cases h
  · rename_i hroom
    rw [Geometry.paws_eq_ceiling hg, Geometry.size_eq hg] at h
    cases h
    exact ⟨hg, by omega, rfl⟩

theorem tracks_create {pool pool' : BufferPool} (h : create g offset pool = .ok (e, pool')) :
    e.Tracks g offset pool.bufferSize 0 0 [] ∧ e.latest = none := by
  obtain ⟨hg, hroom, he⟩ := create_spec h
  have hframe : e.Framed g offset pool.bufferSize := by
    subst he
    refine ⟨hg, hroom, rfl, rfl, rfl, rfl, by simp, fun s hs => ?_⟩
    obtain ⟨b, hb, rfl⟩ := List.mem_map.1 hs
    exact BufferPool.length_bytes_acquireMany hb
  have hholds := hframe.holds_nil (by rw [he]) (by rw [he])
  exact ⟨{ hholds with
    aligned := Nat.dvd_zero _
    held := (Nat.zero_mod _).symm
    next_eq := by rw [he]; simp [Geometry.seqidAt] }, by rw [he]⟩

/-- Every new sender can start its numbering anywhere; it starts at the group of that sequence id. -/
theorem tracks_startAt (h : e.Tracks g offset size 0 0 []) (seqid : UInt32) :
    ∃ e', e.startAt seqid = .ok e' ∧ e'.Tracks g offset size e'.next.toNat 0 [] ∧ e'.latest = e.latest ∧
      e'.next.toNat < g.ceiling := by
  have hg := h.valid
  set wrapped := seqid.toNat % g.ceiling with hw
  set start := wrapped - wrapped % g.total with hstart
  have hlt : start < g.ceiling := lt_of_le_of_lt (Nat.sub_le _ _) (Nat.mod_lt _ (Geometry.ceiling_pos hg))
  have hnext : (UInt32.ofNat start).toNat = start := by
    rw [← Nat.mod_eq_of_lt hlt]
    exact Geometry.toNat_ofNat_mod_ceiling hg _
  have heq : e.startAt seqid = .ok { e with next := UInt32.ofNat start } := by
    unfold startAt
    rw [h.ceiling_eq, Checked.mod_eq (Geometry.ceiling_pos hg), h.geometry_eq, Geometry.stride_eq hg]
    simp only [Checked.ok_bind, Checked.mod_eq (Geometry.total_pos hg)]
    rfl
  refine ⟨_, heq, { h with aligned := ?_, next_eq := ?_ }, rfl, by rw [hnext]; exact hlt⟩
  · rw [hnext]
    exact Nat.dvd_sub_mod _
  · simp only [hnext]
    rw [Geometry.seqidAt, Geometry.packetPlace_zero, Nat.add_zero, Nat.mod_eq_of_lt hlt]

/-! ### One packet -/

theorem advance_eq {x : ℕ} (hg : g.Valid) (hc : e.ceiling = g.ceiling) (hn : e.next = g.seqidAt base x)
    (k : ℕ) : e.advance k = .ok { e with next := g.seqidAt base (x + k) } := by
  unfold advance
  rw [hc, Checked.mod_eq (Geometry.ceiling_pos hg), hn, Geometry.toNat_seqidAt hg, Nat.mod_add_mod, Nat.add_assoc]
  rfl

/-- Sealing parity writes a shard into each slot, with the next sequence ids. -/
theorem sealParity_eq {x : ℕ} (hg : g.Valid) (hc : e.ceiling = g.ceiling) (hn : e.next = g.seqidAt base x)
    {w : ℕ} (slots : List ScratchSlot) (shards : List Bytes) (hlen : slots.length = shards.length)
    (hslot : ∀ s ∈ slots, e.offset + headerSize + w ≤ s.buffer.bytes.length)
    (hw : ∀ b ∈ shards, b.length = w) :
    ∃ slots', e.sealParity slots shards = .ok ({ e with next := g.seqidAt base (x + shards.length) }, slots') ∧
      slots'.map (·.buffer.bytes.length) = slots.map (·.buffer.bytes.length) ∧
      slots'.map (fun s => (s.buffer.bytes.take (e.offset + headerSize + w)).drop e.offset) =
        shards.mapIdx fun k b => wireShard g base (x + k) .parity b := by
  induction slots generalizing e x shards with
  | nil =>
    rw [List.eq_nil_of_length_eq_zero hlen.symm]
    refine ⟨[], ?_, rfl, rfl⟩
    simp [sealParity, ← hn]
  | cons s rest ih =>
    cases shards with
    | nil => simp at hlen
    | cons b shards =>
      have hb := hw b (List.mem_cons_self ..)
      have hs := hslot s (List.mem_cons_self ..)
      obtain ⟨slots', h1, h2, h3⟩ := ih (e := { e with next := g.seqidAt base (x + 1) }) hc rfl shards
        (by simpa using hlen) (fun t ht => hslot t (List.mem_cons_of_mem _ ht))
        (fun c hcm => hw c (List.mem_cons_of_mem _ hcm))
      have hhead : (Header.toBytes ⟨e.next, .parity⟩).length = headerSize := Header.length_toBytes _
      set t := (s.write e.bodyStart b).write e.offset (Header.toBytes ⟨e.next, .parity⟩) with ht
      refine ⟨t :: slots', ?_, ?_, ?_⟩
      · rw [sealParity, advance_eq hg hc hn]
        simp only [Checked.ok_bind, h1, List.length_cons]
        rw [Nat.add_assoc, Nat.add_comm 1]
        rfl
      · have hwrite : (s.write e.bodyStart b).buffer.bytes.length = s.buffer.bytes.length :=
          ScratchSlot.length_write (by unfold bodyStart; omega)
        have htl : t.buffer.bytes.length = s.buffer.bytes.length := by
          rw [ht, ScratchSlot.length_write (by omega), hwrite]
        rw [List.map_cons, List.map_cons, htl, h2]
      · rw [List.map_cons, List.mapIdx_cons, h3]
        congr 1
        · rw [ht, bodyStart, ScratchSlot.drop_take_write _ hb hs, wireShard, hn, Nat.add_zero]
        · congr 1
          funext k c
          rw [Nat.add_assoc, Nat.add_comm 1]

/-- Keeping one more body. -/
theorem store_holds (h : e.Holds g offset size bodies) {b : Bytes} (hroom : bodies.length < g.total)
    (hb : offset + headerSize + b.length ≤ size) :
    ∃ e', e.store (offset + headerSize + b.length) b = .ok e' ∧ e'.Holds g offset size (bodies ++ [b]) ∧
      e'.next = e.next := by
  have hlt : e.count < e.scratch.length := by rw [h.count_eq, h.slots]; exact hroom
  set slot := e.scratch[e.count] with hslot
  have hlen : slot.buffer.bytes.length = size := h.slot _ (List.getElem_mem hlt)
  set slot' : ScratchSlot := { slot.write (offset + headerSize) b with used := offset + headerSize + b.length }
    with hslot'
  have hstart : e.bodyStart = offset + headerSize := by rw [bodyStart, h.offset_eq]
  refine ⟨{ e with
    scratch := e.scratch.set e.count slot'
    count := e.count + 1
    longest := max e.longest (offset + headerSize + b.length) }, ?_, ?_, rfl⟩
  · rw [store, List.getElem?_eq_getElem hlt]
    simp only [← hslot, hstart]
    rw [if_neg (by omega)]
  · have hwidth : width (bodies ++ [b]) = max (width bodies) b.length := width_concat _ _
    exact { h with
      slots := by rw [List.length_set, h.slots]
      slot := by
        intro s hs
        rcases List.mem_or_eq_of_mem_set hs with hs | rfl
        · exact h.slot s hs
        · exact (ScratchSlot.length_write (by omega)).trans hlen
      count_eq := by simp [h.count_eq]
      longest_eq := by
        show max e.longest _ = _
        rw [h.longest_eq, if_neg (List.append_ne_nil_of_right_ne_nil _ (List.cons_ne_nil _ _)), hwidth]
        by_cases hnil : bodies = []
        · simp [hnil, width]
        · rw [if_neg hnil]; omega
      fits := by
        have := h.fits
        omega
      kept := by
        -- only the slot of the new body is written
        intro i c hc
        rcases Nat.lt_trichotomy i bodies.length with hi | hi | hi
        · rw [List.getElem?_append_left hi] at hc
          obtain ⟨s, hs, h1, h2⟩ := h.kept i c hc
          refine ⟨s, ?_, h1, h2⟩
          rw [List.getElem?_set_ne (by rw [h.count_eq]; omega), hs]
        · subst hi
          rw [List.getElem?_concat_length] at hc
          obtain rfl := Option.some.inj hc
          refine ⟨slot', ?_, rfl, ScratchSlot.slice_write (by omega)⟩
          rw [← h.count_eq, List.getElem?_set_self hlt]
        · rw [List.getElem?_eq_none (by simp; omega)] at hc
          cases hc }

/-! ### A full group -/

section Full

variable (h : e.Holds g offset size bodies) (hfull : bodies.length = g.data)

include h hfull

theorem longest_of_full : e.longest = offset + headerSize + width bodies := by
  have hd := h.valid.data_pos
  rw [h.longest_eq, if_neg]
  intro hnil
  rw [hnil, List.length_nil] at hfull
  omega

/-- The slot at a place of the data part holds the body of its packet. -/
theorem slot_of_full {i : ℕ} (hi : i < g.data) : ∃ s : ScratchSlot, e.scratch[i]? = some s ∧
    s.used = offset + headerSize + (bodies.getD i []).length ∧ s.buffer.bytes.length = size ∧
      s.buffer.bytes.slice (offset + headerSize) s.used = bodies.getD i [] := by
  have hib : i < bodies.length := by omega
  obtain ⟨s, hs, h1, h2⟩ := h.kept i (bodies.getD i []) (by
    rw [List.getD_eq_getElem _ _ hib, List.getElem?_eq_getElem hib])
  exact ⟨s, hs, h1, h.slot s (List.mem_of_getElem? hs), h2⟩

theorem slotsReach_of_full : e.SlotsReach := by
  have hl := longest_of_full h hfull
  have hfits := h.fits
  refine ⟨by rw [bodyStart, h.offset_eq]; omega, fun s hs => by rw [h.slot s hs]; omega, fun s hs => ?_⟩
  rw [h.geometry_eq] at hs
  obtain ⟨i, hi, rfl⟩ := List.mem_iff_getElem.1 hs
  rw [List.length_take] at hi
  obtain ⟨t, ht, hused, -, -⟩ := slot_of_full h hfull (i := i) (by omega)
  rw [List.getElem_take]
  rw [List.getElem?_eq_getElem (by omega)] at ht
  rw [Option.some.inj ht]
  have := length_getD_le_width bodies i
  omega

/-- What the code sees of the data slots: the bodies, filled up to the longest one. -/
theorem slices_of_full :
    ((e.scratch.take g.data).map (·.pad e.longest)).map
      (·.buffer.bytes.slice (offset + headerSize) e.longest) = evened bodies := by
  have hl := longest_of_full h hfull
  have hd : g.data ≤ e.scratch.length := by rw [h.slots]; exact Nat.le_add_right _ _
  apply List.ext_getElem
  · simp only [List.length_map, List.length_take, length_evened]
    omega
  · intro i h1 h2
    rw [length_evened, hfull] at h2
    obtain ⟨s, hs, hused, hlen, hbody⟩ := slot_of_full h hfull h2
    have hle := length_getD_le_width bodies i
    have hfits := h.fits
    have hib : i < bodies.length := by omega
    rw [List.getElem?_eq_getElem (by omega)] at hs
    simp only [List.getElem_map, List.getElem_take, Option.some.inj hs, evened]
    rw [ScratchSlot.slice_pad (by omega) (by omega) (by omega), hbody, hl, Nat.add_sub_cancel_left,
      List.getD_eq_getElem _ _ hib]

/-- Padding keeps the data slots as long as they were. -/
theorem length_padded {s : ScratchSlot} (hs : s ∈ (e.scratch.take g.data).map (·.pad e.longest)) :
    s.buffer.bytes.length = size := by
  obtain ⟨t, ht, rfl⟩ := List.mem_map.1 hs
  have hlen := h.slot t (List.mem_of_mem_take ht)
  have hreach := (slotsReach_of_full h hfull).2.2 t (by rw [h.geometry_eq]; exact ht)
  have hfits := h.fits
  have hl := longest_of_full h hfull
  rw [← hlen]
  exact ScratchSlot.length_pad (by omega) (by omega)

/-- The parity that the code computes of a full group. The parity slots are as long as the data then, so the code
refuses nothing. -/
theorem parity_of_full (hpos : 0 < width bodies) :
    Code.parity g (((e.scratch.take g.data).map (·.pad e.longest) ++ e.scratch.drop g.data).map
      (·.buffer.bytes.slice (offset + headerSize) e.longest)) =
      some ((List.range g.parity).map fun k => parityBody g bodies (g.data + k)) := by
  have hl := longest_of_full h hfull
  have hfits := h.fits
  have hslots := h.slots
  have htotal : g.total = g.data + g.parity := rfl
  set data := (e.scratch.take g.data).map (·.pad e.longest) with hdata
  have hdlen : data.length = g.data := by
    rw [hdata, List.length_map, List.length_take]; omega
  set seen := (data ++ e.scratch.drop g.data).map (·.buffer.bytes.slice (offset + headerSize) e.longest)
    with hseen
  have hseenlen : seen.length = g.total := by
    rw [hseen, List.length_map, List.length_append, List.length_drop]; omega
  have hseenwidth : ∀ s ∈ seen, s.length = width bodies := by
    intro s hs
    obtain ⟨t, ht, rfl⟩ := List.mem_map.1 hs
    have htl : t.buffer.bytes.length = size := by
      rcases List.mem_append.1 ht with ht | ht
      · exact length_padded h hfull ht
      · exact h.slot t (List.mem_of_mem_drop ht)
    rw [Bytes.slice, List.length_take, List.length_drop]
    omega
  have htake : seen.take g.data = evened bodies := by
    rw [hseen, List.map_append, List.take_left' (by rw [List.length_map, hdlen])]
    exact slices_of_full h hfull
  rw [Code.parity_eq h.valid hpos hseenlen hseenwidth, htake]
  rfl

/-- **The parity of a full group.** The code never refuses it, and its shards get the next sequence ids. -/
theorem protect_eq (hpos : 0 < width bodies) {x : ℕ} (hn : e.next = g.seqidAt base x) :
    ∃ e', e.protect = .ok (some e') ∧ e'.Framed g offset size ∧ e'.next = g.seqidAt base (x + g.parity) ∧
      (e'.scratch.drop g.data).map (fun s => (s.buffer.bytes.take e'.longest).drop offset) =
        (List.range g.parity).map fun k => wireShard g base (x + k) .parity (parityBody g bodies (g.data + k)) := by
  have hl := longest_of_full h hfull
  have htotal : g.total = g.data + g.parity := rfl
  have hslots := h.slots
  have hcode := parity_of_full h hfull hpos
  have hpadded := fun s hs => length_padded h hfull (s := s) hs
  set data := (e.scratch.take g.data).map (·.pad e.longest) with hdata
  set spare := e.scratch.drop g.data with hspare
  have hdlen : data.length = g.data := by
    rw [hdata, List.length_map, List.length_take]; omega
  have hslen : spare.length = g.parity := by rw [hspare, List.length_drop]; omega
  have hssize : ∀ s ∈ spare, s.buffer.bytes.length = size := fun s hs => h.slot s (List.mem_of_mem_drop hs)
  set shards := (List.range g.parity).map fun k => parityBody g bodies (g.data + k) with hshards
  have hshardlen : shards.length = g.parity := by rw [hshards, List.length_map, List.length_range]
  have hshardwidth : ∀ b ∈ shards, b.length = width bodies := by
    intro b hb
    obtain ⟨k, -, rfl⟩ := List.mem_map.1 hb
    exact length_parityBody hfull _
  -- sealing writes them into the parity slots, and changes the length of none
  obtain ⟨spare', h1, h2, h3⟩ := sealParity_eq h.valid h.ceiling_eq hn spare shards (by omega)
    (by intro s hs; rw [hssize s hs, h.offset_eq]; exact h.fits) hshardwidth
  rw [hshardlen] at h1
  refine ⟨{ e with next := g.seqidAt base (x + g.parity), scratch := data ++ spare' }, ?_, ?_, rfl, ?_⟩
  · have hbs : e.bodyStart = offset + headerSize := by rw [bodyStart, h.offset_eq]
    conv_lhs => rw [protect, if_neg (not_not.2 (slotsReach_of_full h hfull)), h.geometry_eq, hbs]
    simp only [← hdata, ← hspare, hcode, h1, Checked.ok_bind]
    rfl
  · have hs'len : spare'.length = spare.length := by
      have := congrArg List.length h2
      rwa [List.length_map, List.length_map] at this
    exact { h.toFramed with
      slots := by rw [List.length_append]; omega
      slot := by
        intro s hs
        rcases List.mem_append.1 hs with hs | hs
        · exact hpadded s hs
        · have : s.buffer.bytes.length ∈ spare.map (·.buffer.bytes.length) := h2 ▸ List.mem_map_of_mem hs
          obtain ⟨t, ht, heq⟩ := List.mem_map.1 this
          rw [← heq, hssize t ht] }
  · rw [h.offset_eq, ← hl] at h3
    rw [List.drop_left' hdlen, h3, hshards]
    apply List.ext_getElem (by simp)
    intro k hk1 hk2
    simp

/-- Finishing a full group gives its parity, or uses up the sequence ids of the parity, and begins the next
group. The counters stay as they are. -/
theorem finishGroup_eq (hpos : 0 < width bodies) {x : ℕ} (hn : e.next = g.seqidAt base x) (counters : Counters)
    (continuous : Bool) :
    ∃ e' parity, e.finishGroup counters continuous = .ok (e', counters, parity) ∧
      e'.Holds g offset size [] ∧ e'.next = g.seqidAt base (x + g.parity) ∧
      parity.map (·.drop offset) = if continuous then
        (List.range g.parity).map fun k => wireShard g base (x + k) .parity (parityBody g bodies (g.data + k))
        else [] := by
  cases continuous with
  | true =>
    obtain ⟨e', h1, h2, h3, h4⟩ := protect_eq h hfull hpos hn
    refine ⟨e'.beginGroup, (e'.scratch.drop e'.geometry.data).map (·.buffer.bytes.take e'.longest), ?_, ?_, h3, ?_⟩
    · rw [finishGroup, if_pos rfl, h1]
      rfl
    · exact Framed.holds_nil { h2 with } rfl rfl
    · rw [h2.geometry_eq, List.map_map, if_pos rfl, ← h4]
      rfl
  | false =>
    have hadv := advance_eq h.valid h.ceiling_eq hn g.parity
    refine ⟨_, [], ?_, Framed.holds_nil (e := { e with next := _, count := 0, longest := 0 }) { h.toFramed with }
      rfl rfl, rfl, rfl⟩
    conv_lhs => rw [finishGroup, if_neg (by simp), h.geometry_eq, hadv]
    rfl

end Full

/-! ### The next packet -/

/-- A packet that a sender takes: it has room for the header and the length prefix, and fits into a scratch
slot and into what the prefix can say. -/
structure Takes (offset size : ℕ) (packet : Bytes) : Prop where
  long : offset + framingSize ≤ packet.length
  slot : packet.length ≤ size
  said : packet.length < offset + headerSize + sizePrefixLimit

/-- A packet is refused where it is not taken, and a refusal is no fault. -/
theorem screen_cases (h : e.Framed g offset size) (packet : Bytes) :
    e.screen packet.length = .ok () ∧ Takes offset size packet ∨
      (∃ r, e.screen packet.length = .error r ∧ ¬ r.IsFault) ∧ ¬ Takes offset size packet := by
  have hframing : framingSize = headerSize + sizePrefixLength := rfl
  have hlimit : 0 < sizePrefixLimit := by decide
  unfold screen bodyStart
  rw [h.offset_eq, h.slotSize_eq]
  split
  · exact .inr ⟨⟨_, rfl, not_false⟩, fun ht => absurd ht.long (by omega)⟩
  split
  · exact .inr ⟨⟨_, rfl, not_false⟩, fun ht => absurd ht.slot (by omega)⟩
  split
  · exact .inr ⟨⟨_, rfl, not_false⟩, fun ht => absurd ht.said (by omega)⟩
  · exact .inl ⟨rfl, ⟨by omega, by omega, by omega⟩⟩

/-- **What sealing the next packet of a stream gives.** -/
structure Seals (e : Encoder) (g : Geometry) (offset size base n : ℕ) (bodies : List Bytes)
    (counters : Counters) (packet : Bytes) (staleness now : ℕ) (s : Sealed) : Prop where
  long : offset + framingSize ≤ packet.length
  short : (Frame.encode (packet.drop (offset + framingSize))).length < sizePrefixLimit
  counters_eq : s.counters = counters
  packet_eq : s.packet = packet.take offset ++
    wireShard g base (g.packetPlace n) .data (Frame.encode (packet.drop (offset + framingSize)))
  latest_eq : s.encoder.latest = some now
  tracks : s.encoder.Tracks g offset size base (n + 1) (if n % g.data + 1 = g.data then []
    else bodies ++ [Frame.encode (packet.drop (offset + framingSize))])
  parity_eq : s.parity.map (·.drop offset) =
    if n % g.data + 1 = g.data ∧ e.continues staleness now = true then
      (List.range g.parity).map fun k => wireShard g base (g.place (n / g.data) (g.data + k)) .parity
        (parityBody g (bodies ++ [Frame.encode (packet.drop (offset + framingSize))]) (g.data + k))
    else []

/-- Behind the outer framing stands the shard that goes on the wire. -/
theorem Seals.drop_packet {counters : Counters} {packet : Bytes} {staleness now : ℕ} {s : Sealed}
    (h : e.Seals g offset size base n bodies counters packet staleness now s) :
    s.packet.drop offset =
      wireShard g base (g.packetPlace n) .data (Frame.encode (packet.drop (offset + framingSize))) := by
  have hlong := h.long
  rw [h.packet_eq, List.drop_left' (by rw [List.length_take]; omega)]

/-- Behind the outer framing of a parity slice stands the shard that goes on the wire. -/
theorem Seals.drop_parity {counters : Counters} {packet : Bytes} {staleness now : ℕ} {s : Sealed}
    (h : e.Seals g offset size base n bodies counters packet staleness now s) {k : ℕ} {slice : Bytes}
    (hk : s.parity[k]? = some slice) :
    n % g.data + 1 = g.data ∧ k < g.parity ∧
      slice.drop offset = wireShard g base (g.place (n / g.data) (g.data + k)) .parity
        (parityBody g (bodies ++ [Frame.encode (packet.drop (offset + framingSize))]) (g.data + k)) := by
  have hdrop : (s.parity.map (·.drop offset))[k]? = some (slice.drop offset) := by
    rw [List.getElem?_map, hk]
    rfl
  rw [h.parity_eq] at hdrop
  split at hdrop
  · rename_i hlast
    obtain ⟨hlt, heq⟩ := List.getElem?_eq_some_iff.1 hdrop
    rw [List.getElem_map, List.getElem_range] at heq
    exact ⟨hlast.1, by simpa using hlt, heq.symm⟩
  · rw [List.getElem?_nil] at hdrop
    cases hdrop

/-- There is parity exactly where the packet completes its group soon enough, and then all of it. -/
theorem Seals.length_parity {counters : Counters} {packet : Bytes} {staleness now : ℕ} {s : Sealed}
    (h : e.Seals g offset size base n bodies counters packet staleness now s) : s.parity.length =
      if n % g.data + 1 = g.data ∧ e.continues staleness now = true then g.parity else 0 := by
  have hlen := congrArg List.length h.parity_eq
  rw [List.length_map] at hlen
  rw [hlen]
  split <;> simp

/-- A group with a framed body has a width. -/
theorem width_pos_of_encode {bodies : List Bytes} {payload : Bytes} (h : Frame.encode payload ∈ bodies) :
    0 < width bodies := by
  have hle := length_le_width h
  rw [Frame.length_encode, sizePrefixLength] at hle
  omega

/-- A packet takes the next sequence id and the next scratch slot. -/
theorem store_next {x : ℕ} (h : e.Holds g offset size bodies) (hopen : bodies.length < g.data)
    (hn : e.next = g.seqidAt base x) {b : Bytes} (hb : offset + headerSize + b.length ≤ size) :
    ∃ e₁ stored, e.advance 1 = .ok e₁ ∧ e₁.store (offset + headerSize + b.length) b = .ok stored ∧
      stored.Holds g offset size (bodies ++ [b]) ∧ stored.next = g.seqidAt base (x + 1) := by
  have htotal : g.total = g.data + g.parity := rfl
  have hadv := advance_eq h.valid h.ceiling_eq hn 1
  have hholds₁ : Holds { e with next := g.seqidAt base (x + 1) } g offset size bodies := { h with }
  obtain ⟨stored, hstore, hholds, hnext⟩ := store_holds hholds₁ (by omega) hb
  exact ⟨_, stored, hadv, hstore, hholds, hnext⟩

/-- Up to the question whether the group is complete: the packet takes one sequence id and one scratch slot. -/
theorem encode_stored (h : e.Tracks g offset size base n bodies) {packet : Bytes}
    (hscreen : e.screen packet.length = .ok ()) (htakes : Takes offset size packet) (counters : Counters)
    (staleness now : ℕ) :
    ∃ stored : Encoder,
      stored.Holds g offset size (bodies ++ [Frame.encode (packet.drop (offset + framingSize))]) ∧
      stored.next = g.seqidAt base (g.packetPlace n + 1) ∧
      e.encode counters packet staleness now = do
        let (done, counters, parity) ← if n % g.data + 1 = g.data
          then stored.finishGroup counters (e.continues staleness now) else pure (stored, counters, [])
        return ⟨{ done with latest := some now }, counters, packet.take offset ++ wireShard g base
          (g.packetPlace n) .data (Frame.encode (packet.drop (offset + framingSize))), parity⟩ := by
  have hbs : e.bodyStart = offset + headerSize := by rw [bodyStart, h.offset_eq]
  have hframing : framingSize = headerSize + sizePrefixLength := rfl
  have hlong := htakes.long
  have hslot := htakes.slot
  have hmod := Nat.mod_lt n h.valid.data_pos
  set b := Frame.encode (packet.drop (offset + framingSize)) with hb
  have hblen : offset + headerSize + b.length = packet.length := by
    rw [hb, Frame.length_encode, List.length_drop]; omega
  obtain ⟨e₁, stored, hadv, hstore, hholds, hnext⟩ := store_next h.toHolds (by rw [h.held]; exact hmod) h.next_eq
    (b := b) (by omega)
  rw [hblen] at hstore
  have hbody : e.bodyStart + sizePrefixLength = offset + framingSize := by rw [hbs, hframing, Nat.add_assoc]
  have hcond : stored.count = stored.geometry.data ↔ n % g.data + 1 = g.data := by
    rw [hholds.count_eq, hholds.geometry_eq, List.length_append, List.length_singleton, h.held]
  refine ⟨stored, hholds, hnext, ?_⟩
  unfold encode
  simp only [hscreen, hadv, Checked.ok_bind, hbody, ← hb, hstore, hcond]
  rw [wireShard, ← List.append_assoc, ← h.offset_eq, ← h.next_eq]

/-- **Sealing a packet.** Whatever packet is taken is sealed, and the sender tracks the stream on. -/
theorem encode_tracks (h : e.Tracks g offset size base n bodies) {packet : Bytes}
    (hscreen : e.screen packet.length = .ok ()) (htakes : Takes offset size packet) (counters : Counters)
    (staleness now : ℕ) :
    ∃ s, e.encode counters packet staleness now = .ok s ∧
      e.Seals g offset size base n bodies counters packet staleness now s := by
  have hlong := htakes.long
  have hsaid := htakes.said
  have hframing : framingSize = headerSize + sizePrefixLength := rfl
  obtain ⟨stored, hholds, hnext, heq⟩ := encode_stored h hscreen htakes counters staleness now
  set b := Frame.encode (packet.drop (offset + framingSize)) with hb
  have hblen : b.length = packet.length - (offset + framingSize) + sizePrefixLength := by
    rw [hb, Frame.length_encode, List.length_drop]
  have hshort : b.length < sizePrefixLimit := by omega
  by_cases hlast : n % g.data + 1 = g.data
  · -- the packet completes its group
    have hpos : 0 < width (bodies ++ [b]) := by
      have hbpos : 0 < b.length := by rw [hb, Frame.length_encode]; exact Nat.succ_pos _
      rw [width_concat]
      exact lt_of_lt_of_le hbpos (le_max_right _ _)
    obtain ⟨e', parity, hfin, hholds', hnext', hpar⟩ := finishGroup_eq hholds
      (by rw [List.length_append, List.length_singleton, h.held, hlast]) hpos hnext counters
      (e.continues staleness now)
    obtain ⟨hmod', hplace⟩ := Geometry.packetPlace_succ_of_eq hlast
    rw [if_pos hlast, hfin] at heq
    refine ⟨_, heq, hlong, hshort, rfl, rfl, rfl, ?_, ?_⟩
    · rw [if_pos hlast]
      exact { hholds' with
        aligned := h.aligned
        held := hmod'.symm
        next_eq := by rw [hplace]; exact hnext' }
    · have hx : ∀ k, g.packetPlace n + 1 + k = g.place (n / g.data) (g.data + k) := by
        intro k
        rw [Geometry.packetPlace, Geometry.place_add, Geometry.place_add, hlast]
      simp only [hpar, hx, hlast, true_and, hb]
  · -- the group stays open
    obtain ⟨hmod', hplace⟩ := Geometry.packetPlace_succ_of_lt (g := g) (n := n) (by
      have := Nat.mod_lt n h.valid.data_pos
      omega)
    rw [if_neg hlast] at heq
    refine ⟨_, heq, hlong, hshort, rfl, rfl, rfl, ?_, ?_⟩
    · rw [if_neg hlast]
      exact { hholds with
        aligned := h.aligned
        held := by rw [List.length_append, List.length_singleton, h.held, hmod']
        next_eq := by rw [hplace]; exact hnext }
    · rw [if_neg (fun hc => hlast hc.1)]
      rfl

end Encoder

end PacketFec
