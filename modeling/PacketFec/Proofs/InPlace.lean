import Mathlib
import PacketFec.Proofs.ParityRows

/-!
# Sealing a packet in place

`Encoder.encode` gives the sender, the counters and the packet behind a call that succeeds. Of a call that fails it
gives the error alone, and does not say what such a call has written. In a process there is one sender, and every
statement of the call changes it where it stands: the sequence id is handed out before the header is written, and the
body is kept before the parity is computed. A statement that fails leaves all of this behind.

Here the call is written as its statements, in their order, each with the checks that it makes itself. Where a sender
holds the bodies of an open group, none of the checks behind the first one fails, and the statements together leave what
`Encoder.encode` gives.

* `Workbench`, `Statement`: what the statements change, which outlasts their errors.
* `Encoder.sealPacket`: the call.
* `Encoder.framePacket_eq`: the statements up to the kept body.
* `Encoder.padSlots_eq`, `Encoder.stampSlots_eq`: the two loops over the slots.
* `Encoder.computeParity_eq`, `Encoder.closeGroup_eq`: the statements that close a group.
* `Encoder.sealPacket_refused`, `Encoder.Poised.sealPacket_sealed`: **the call fails at its first check, or it
  finishes.**
-/

namespace PacketFec

/-! ### Statements -/

/-- What a call works on: the sender, the counters, and the packet of the caller. -/
structure Workbench where
  /-- The sender. -/
  encoder : Encoder
  /-- The counters. -/
  counters : Counters
  /-- The packet. -/
  packet : Bytes

/-- Statements that change a workbench where it stands. An error leaves it as far as they have come. -/
abbrev Statement (α : Type) := EStateM Error Workbench α

namespace Statement

variable {β : Type} {w : Workbench}

theorem get_bind (f : Workbench → Statement β) : (get >>= f) w = f w w := rfl

/-- A check, which changes nothing. -/
def check (verdict : Except Error Unit) : Statement Unit := fun w =>
  match verdict with
  | .ok () => .ok () w
  | .error r => .error r w

/-- A change of the sender that is made as a whole, or not at all. -/
def change (f : Encoder → Except Error Encoder) : Statement Unit := fun w =>
  match f w.encoder with
  | .ok e => .ok () { w with encoder := e }
  | .error r => .error r w

theorem change_eq {f : Encoder → Except Error Encoder} {e : Encoder} (h : f w.encoder = .ok e) :
    change f w = .ok () { w with encoder := e } := by
  unfold change
  rw [h]

end Statement

/-- Write a header behind an offset. The rest of the buffer must have room for it. -/
def Header.writeAt (h : Header) (offset : ℕ) (bytes : Bytes) : Except Error Bytes :=
  if bytes.length < offset then .error .outOfRange
  else (h.write (bytes.drop offset)).map (bytes.take offset ++ ·)

theorem Header.writeAt_eq (h : Header) {offset : ℕ} {bytes : Bytes} (hroom : offset + headerSize ≤ bytes.length) :
    h.writeAt offset bytes = .ok (bytes.overwrite offset h.toBytes) := by
  rw [writeAt, if_neg (by omega), write, if_neg (by rw [List.length_drop]; omega), Bytes.overwrite, Bytes.overwrite,
    List.drop_drop]
  simp only [Except.map, List.take_zero, List.nil_append, Nat.zero_add, List.append_assoc]

namespace Encoder

open Statement

/-! ### The call -/

/-- Hand out some sequence ids, and give the first of them. -/
def handOut (n : ℕ) : Statement UInt32 := do
  let w ← get
  change (·.advance n)
  return w.encoder.next

/-- Write the header of the packet. -/
def stampPacket (header : Header) : Statement Unit := fun w =>
  match header.writeAt w.encoder.offset w.packet with
  | .ok packet => .ok () { w with packet }
  | .error r => .error r w

/-- Write the length prefix of the packet, in its two bytes. -/
def writePrefix : Statement Unit := fun w =>
  let start := w.encoder.bodyStart
  if w.packet.length < start + sizePrefixLength then .error .outOfRange w
  else .ok () { w with
    packet := w.packet.overwrite start (Bytes.little sizePrefixLength (w.packet.length - start)) }

/-- Keep the body of the packet in the next slot. -/
def keepBody : Statement Unit := fun w =>
  change (fun e =>
    if w.packet.length < e.bodyStart then .error .outOfRange
    else e.store w.packet.length (w.packet.slice e.bodyStart w.packet.length)) w

/-- Change one slot. -/
def changeSlot (i : ℕ) (f : Encoder → ScratchSlot → Except Error ScratchSlot) (e : Encoder) : Except Error Encoder :=
  match e.scratch[i]? with
  | none => .error .outOfRange
  | some slot => (f e slot).map fun slot => { e with scratch := e.scratch.set i slot }

/-- Fill a slot up with zeros to the end of the longest packet. -/
def padSlot (i : ℕ) : Statement Unit :=
  change (changeSlot i fun e slot =>
    if slot.used ≤ e.longest ∧ e.longest ≤ slot.buffer.bytes.length then .ok (slot.pad e.longest)
    else .error .outOfRange)

/-- Write bodies into slots. -/
def writeBodies (start : ℕ) (slots : List ScratchSlot) (shards : List Bytes) : List ScratchSlot :=
  List.zipWith (fun slot shard => slot.write start shard) slots shards

/-- Run the code over the slots, which writes the parity bodies. A refusal is counted. -/
def runCode : Statement Bool := fun w =>
  let e := w.encoder
  if ¬ (e.bodyStart ≤ e.longest ∧ ∀ slot ∈ e.scratch, e.longest ≤ slot.buffer.bytes.length) then .error .outOfRange w
  else match Code.parity e.geometry (e.scratch.map (·.buffer.bytes.slice e.bodyStart e.longest)) with
    | none => .ok false { w with counters := w.counters.add .errors 1 }
    | some parity => .ok true { w with encoder := { e with
        scratch := e.scratch.take e.geometry.data ++
          writeBodies e.bodyStart (e.scratch.drop e.geometry.data) parity } }

/-- Write a parity header into a slot, with the next sequence id. -/
def stampSlot (i : ℕ) : Statement Unit := do
  let seqid ← handOut 1
  change (changeSlot i fun e slot =>
    (Header.writeAt ⟨seqid, .parity⟩ e.offset slot.buffer.bytes).map fun bytes =>
      { slot with buffer := slot.buffer.hold bytes })

/-- Compute the parity of a full group. The result says whether the code has accepted it. -/
def computeParity : Statement Bool := do
  let w ← get
  forM (List.range' 0 w.encoder.geometry.data) padSlot
  let accepted ← runCode
  if accepted then
    forM (List.range' w.encoder.geometry.data w.encoder.geometry.parity) stampSlot
  return accepted

/-- Close a full group, with parity where it is not stale. The result is the length of the parity slices. -/
def closeGroup (continuous : Bool) : Statement (Option ℕ) := do
  let accepted ← if continuous then computeParity else pure false
  let w ← get
  if accepted then
    change fun e => .ok e.beginGroup
    return some w.encoder.longest
  else
    let _ ← handOut w.encoder.geometry.parity
    change fun e => .ok e.beginGroup
    return none

/-- Give views of the parity slots, if there is parity. -/
def giveSlices : Option ℕ → Statement (List Bytes)
  | none => pure []
  | some length => fun w =>
    let spare := w.encoder.scratch.drop w.encoder.geometry.data
    if ∃ slot ∈ spare, slot.buffer.bytes.length < length then .error .outOfRange w
    else .ok (spare.map (·.buffer.bytes.take length)) w

/-- Number and frame the packet, and keep its body. -/
def framePacket : Statement Unit := do
  let seqid ← handOut 1
  stampPacket ⟨seqid, .data⟩
  writePrefix
  keepBody

/-- Seal a packet where it stands. -/
def sealPacket (staleness now : ℕ) : Statement (List Bytes) := do
  let w ← get
  check (w.encoder.screen w.packet.length)
  framePacket
  let w ← get
  let length ← if w.encoder.count = w.encoder.geometry.data then closeGroup (w.encoder.continues staleness now)
    else pure none
  change fun e => .ok { e with latest := some now }
  giveSlices length

variable {g : Geometry} {offset size base x : ℕ} {bodies : List Bytes} {e e' : Encoder} {counters : Counters}
  {packet : Bytes} {w : Workbench}

/-! ### Numbering and framing the packet -/

theorem handOut_eq {n : ℕ} (h : w.encoder.advance n = .ok e) :
    handOut n w = .ok w.encoder.next { w with encoder := e } := by
  rw [handOut, get_bind, bind_ok (change_eq h)]
  rfl

theorem stampPacket_eq (header : Header) (hroom : w.encoder.offset + headerSize ≤ w.packet.length) :
    stampPacket header w =
      .ok () { w with packet := w.packet.overwrite w.encoder.offset header.toBytes } := by
  rw [stampPacket, Header.writeAt_eq header hroom]

theorem writePrefix_eq (hroom : w.encoder.bodyStart + sizePrefixLength ≤ w.packet.length) :
    writePrefix w = .ok () { w with
      packet := w.packet.overwrite w.encoder.bodyStart
        (Bytes.little sizePrefixLength (w.packet.length - w.encoder.bodyStart)) } := by
  rw [writePrefix, if_neg (Nat.not_lt.2 hroom)]

/-- A packet with its header and its length prefix written over it. -/
theorem overwrite_framing (header : Header) (hlong : offset + framingSize ≤ packet.length) :
    (packet.overwrite offset header.toBytes).overwrite (offset + headerSize)
        (Bytes.little sizePrefixLength (packet.length - (offset + headerSize))) =
      packet.take offset ++ header.toBytes ++ Frame.encode (packet.drop (offset + framingSize)) := by
  have hframing : framingSize = headerSize + sizePrefixLength := rfl
  have hhead := Header.length_toBytes header
  have hfront : (packet.take offset ++ header.toBytes).length = offset + headerSize := by
    rw [List.length_append, List.length_take, hhead]
    omega
  have hsize : packet.length - (offset + headerSize) =
      (packet.drop (offset + framingSize)).length + sizePrefixLength := by
    rw [List.length_drop]
    omega
  have hstamped : packet.overwrite offset header.toBytes =
      packet.take offset ++ header.toBytes ++ packet.drop (offset + headerSize) := by
    rw [Bytes.overwrite, hhead]
  rw [hsize, hstamped, Frame.encode, ← hfront, Bytes.overwrite_append, hfront, Bytes.length_little, List.drop_drop,
    hframing, Nat.add_assoc, List.append_assoc _ (Bytes.little _ _)]

/-- **Numbering and framing a packet that fits.** It takes the next sequence id and the next slot. -/
theorem framePacket_eq (counters : Counters) (h : e.Holds g offset size bodies) (hopen : bodies.length < g.data)
    (hn : e.next = g.seqidAt base x) (htakes : Takes offset size packet) :
    ∃ e₁ stored, e.advance 1 = .ok e₁ ∧
      e₁.store packet.length (Frame.encode (packet.drop (offset + framingSize))) = .ok stored ∧
      stored.Holds g offset size (bodies ++ [Frame.encode (packet.drop (offset + framingSize))]) ∧
      stored.next = g.seqidAt base (x + 1) ∧
      framePacket ⟨e, counters, packet⟩ = .ok () ⟨stored, counters, packet.take offset ++
        Header.toBytes ⟨e.next, .data⟩ ++ Frame.encode (packet.drop (offset + framingSize))⟩ := by
  have hframing : framingSize = headerSize + sizePrefixLength := rfl
  have hlong := htakes.long
  have hslot := htakes.slot
  set b := Frame.encode (packet.drop (offset + framingSize)) with hb
  have hblen : offset + headerSize + b.length = packet.length := by
    rw [hb, Frame.length_encode, List.length_drop]
    omega
  obtain ⟨e₁, stored, hadv, hstore, hholds, hnext⟩ := store_next h hopen hn (b := b) (by omega)
  rw [hblen] at hstore
  refine ⟨e₁, stored, hadv, hstore, hholds, hnext, ?_⟩
  have hoffset : e₁.offset = offset := by
    rw [advance_eq h.valid h.ceiling_eq hn] at hadv
    cases hadv
    exact h.offset_eq
  have hstart : e₁.bodyStart = offset + headerSize := by rw [bodyStart, hoffset]
  set sealed : Bytes := packet.take offset ++ Header.toBytes ⟨e.next, .data⟩ ++ b with hsealed
  have hlen : (packet.overwrite offset (Header.toBytes ⟨e.next, .data⟩)).length = packet.length :=
    Bytes.length_overwrite (by rw [Header.length_toBytes]; omega)
  -- the header has room, as the packet has room for its framing
  have hstamp : stampPacket ⟨e.next, .data⟩ ⟨e₁, counters, packet⟩ =
      .ok () ⟨e₁, counters, packet.overwrite offset (Header.toBytes ⟨e.next, .data⟩)⟩ := by
    rw [stampPacket_eq _ (by simp only [hoffset]; omega), hoffset]
  have hprefix : writePrefix ⟨e₁, counters, packet.overwrite offset (Header.toBytes ⟨e.next, .data⟩)⟩ =
      .ok () ⟨e₁, counters, sealed⟩ := by
    rw [writePrefix_eq (by simp only [hstart, hlen]; omega)]
    simp only [hstart, hlen, overwrite_framing _ hlong, hsealed, hb]
  have hfront : (packet.take offset ++ Header.toBytes ⟨e.next, .data⟩).length = offset + headerSize := by
    rw [List.length_append, List.length_take, Header.length_toBytes]
    omega
  have hsealedlen : sealed.length = packet.length := by rw [hsealed, List.length_append, hfront, hblen]
  have hbody : Bytes.slice sealed (offset + headerSize) packet.length = b := by
    rw [hsealed, Bytes.slice, List.drop_left' hfront]
    exact List.take_of_length_le (by omega)
  -- the slot takes what stands behind the header, the prefix included
  have hkeep : keepBody ⟨e₁, counters, sealed⟩ = .ok () ⟨stored, counters, sealed⟩ := by
    apply change_eq
    simp only [hstart, hsealedlen, hbody]
    rw [if_neg (by omega), hstore]
  rw [framePacket, bind_ok (handOut_eq hadv), bind_ok hstamp, bind_ok hprefix, hkeep]

/-! ### The loops over the slots -/

/-- The sender with other slots. -/
def withSlots (e : Encoder) (slots : List ScratchSlot) : Encoder := { e with scratch := slots }

/-- A change of the slot behind some others. -/
theorem changeSlot_eq {f : Encoder → ScratchSlot → Except Error ScratchSlot} {done rest : List ScratchSlot}
    {slot slot' : ScratchSlot} (hf : f (e.withSlots (done ++ slot :: rest)) slot = .ok slot') :
    changeSlot done.length f (e.withSlots (done ++ slot :: rest)) = .ok (e.withSlots (done ++ slot' :: rest)) := by
  have hslot : (e.withSlots (done ++ slot :: rest)).scratch[done.length]? = some slot := by
    show (done ++ slot :: rest)[done.length]? = some slot
    rw [List.getElem?_append_right le_rfl, Nat.sub_self]
    rfl
  have hset : (done ++ slot :: rest).set done.length slot' = done ++ slot' :: rest := by
    rw [List.set_append_right _ _ le_rfl, Nat.sub_self]
    rfl
  rw [changeSlot, hslot]
  simp only [hf, Except.map]
  rw [← hset]
  rfl

/-- **The padding loop.** Each slot must reach up to the end of the longest packet, and its own packet not beyond. -/
theorem padSlots_eq (counters : Counters) (packet : Bytes) {slots : List ScratchSlot} (done rest : List ScratchSlot)
    (hreach : ∀ slot ∈ slots, slot.used ≤ e.longest ∧ e.longest ≤ slot.buffer.bytes.length) :
    forM (List.range' done.length slots.length) padSlot ⟨e.withSlots (done ++ (slots ++ rest)), counters, packet⟩ =
      .ok () ⟨e.withSlots (done ++ (slots.map (·.pad e.longest) ++ rest)), counters, packet⟩ := by
  -- on the slots that are left; those in `done` are padded
  induction slots generalizing done with
  | nil => rfl
  | cons slot slots ih =>
    have hfirst : padSlot done.length ⟨e.withSlots (done ++ slot :: (slots ++ rest)), counters, packet⟩ =
        .ok () ⟨e.withSlots (done ++ slot.pad e.longest :: (slots ++ rest)), counters, packet⟩ :=
      change_eq (changeSlot_eq (if_pos (hreach slot (List.mem_cons_self ..))))
    have hnext := ih (done ++ [slot.pad e.longest]) fun s hs => hreach s (List.mem_cons_of_mem _ hs)
    simp only [List.length_append, List.length_singleton, List.append_assoc, List.singleton_append] at hnext
    rw [List.length_cons, List.range'_succ, List.forM_cons]
    exact (bind_ok hfirst).trans hnext

/-- Handing out sequence ids changes nothing else, and does not look at the slots. -/
theorem advance_inv {n : ℕ} {e₁ : Encoder} (h : e.advance n = .ok e₁) :
    ∃ next, e₁ = { e with next } ∧ ∀ slots, (e.withSlots slots).advance n = .ok (e₁.withSlots slots) := by
  unfold advance at h ⊢
  obtain ⟨place, hplace, h⟩ := Checked.bind_eq_ok.1 h
  cases h
  refine ⟨_, rfl, fun slots => ?_⟩
  simp only [withSlots, hplace]
  rfl

/-- A parity header in its slot, with the next sequence id. -/
theorem stampSlot_eq (counters : Counters) (packet : Bytes) {e₁ : Encoder} {slot : ScratchSlot}
    (done rest : List ScratchSlot)
    (hadv : e.advance 1 = .ok e₁) (hroom : e.offset + headerSize ≤ slot.buffer.bytes.length) :
    stampSlot done.length ⟨e.withSlots (done ++ slot :: rest), counters, packet⟩ =
      .ok () ⟨e₁.withSlots (done ++ slot.write e.offset (Header.toBytes ⟨e.next, .parity⟩) :: rest),
        counters, packet⟩ := by
  obtain ⟨next, rfl, hnext⟩ := advance_inv hadv
  rw [stampSlot, bind_ok (handOut_eq (hnext _))]
  refine change_eq (changeSlot_eq ?_)
  simp only [withSlots]
  rw [Header.writeAt_eq _ hroom]
  rfl

/-- **The loop over the parity slots.** It writes the headers over bodies that stand in the slots already, where
`Encoder.sealParity` writes both at once. -/
theorem stampSlots_eq (counters : Counters) (packet : Bytes) {slots slots' : List ScratchSlot} {shards : List Bytes}
    (done : List ScratchSlot)
    (hseal : e.sealParity slots shards = .ok (e', slots')) (hlen : slots.length = shards.length)
    (hroom : ∀ s ∈ slots, e.offset + headerSize ≤ s.buffer.bytes.length) :
    forM (List.range' done.length shards.length) stampSlot
        ⟨e.withSlots (done ++ writeBodies e.bodyStart slots shards), counters, packet⟩ =
      .ok () ⟨e'.withSlots (done ++ slots'), counters, packet⟩ := by
  -- on the slots that are left; they hold their bodies already, those in `done` their headers too
  induction slots generalizing e done shards slots' with
  | nil =>
    obtain rfl := List.eq_nil_of_length_eq_zero hlen.symm
    cases hseal
    rfl
  | cons slot rest ih =>
    cases shards with
    | nil => cases hlen
    | cons shard shards =>
      obtain ⟨e₁, hadv, hseal⟩ := Checked.bind_eq_ok.1 hseal
      obtain ⟨⟨e₂, rest'⟩, hrest, hseal⟩ := Checked.bind_eq_ok.1 hseal
      cases hseal
      have hslot : e.offset + headerSize ≤ (slot.write e.bodyStart shard).buffer.bytes.length := by
        have hlong := hroom slot (List.mem_cons_self ..)
        show _ ≤ (slot.buffer.bytes.overwrite e.bodyStart shard).length
        rw [Bytes.overwrite, List.length_append, List.length_append, List.length_take, bodyStart]
        omega
      have hfirst := stampSlot_eq counters packet done (writeBodies e.bodyStart rest shards) hadv hslot
      obtain ⟨next, rfl, -⟩ := advance_inv hadv
      have hnext := ih (done ++ [(slot.write e.bodyStart shard).write e.offset (Header.toBytes ⟨e.next, .parity⟩)])
        hrest (by simpa using hlen) fun s hs => hroom s (List.mem_cons_of_mem _ hs)
      simp only [List.length_append, List.length_singleton, List.append_assoc, List.singleton_append] at hnext
      rw [List.length_cons, List.range'_succ, List.forM_cons]
      exact (bind_ok hfirst).trans hnext

/-- Sealing parity hands out sequence ids, and changes nothing else of the sender. -/
theorem sealParity_inv {slots slots' : List ScratchSlot} {shards : List Bytes}
    (h : e.sealParity slots shards = .ok (e', slots')) : ∃ next, e' = { e with next } := by
  induction slots generalizing e shards slots' with
  | nil =>
    cases h
    exact ⟨_, rfl⟩
  | cons slot rest ih =>
    cases shards with
    | nil =>
      cases h
      exact ⟨_, rfl⟩
    | cons shard shards =>
      obtain ⟨e₁, hadv, h⟩ := Checked.bind_eq_ok.1 h
      obtain ⟨⟨e₂, rest'⟩, hrest, h⟩ := Checked.bind_eq_ok.1 h
      cases h
      obtain ⟨next, rfl, -⟩ := advance_inv hadv
      obtain ⟨next', rfl⟩ := ih hrest
      exact ⟨next', rfl⟩

/-! ### A full group -/

theorem length_of_parity {slots parity : List Bytes} (h : Code.parity g slots = some parity) :
    slots.length = g.total ∧ parity.length = g.parity := by
  unfold Code.parity at h
  split at h
  · rename_i hlen
    obtain ⟨_, -, rfl⟩ := Option.map_eq_some_iff.1 h
    exact ⟨hlen, by rw [List.length_map, List.length_range]⟩
  · cases h

/-- The code gets to see the padded slots of the data, and the parity slots behind them. -/
theorem runCode_eq (counters : Counters) (packet : Bytes) {parity : List Bytes} {slots spare : List ScratchSlot}
    (hslots : slots.length = e.geometry.data) (hstart : e.bodyStart ≤ e.longest)
    (hlong : ∀ slot ∈ slots ++ spare, e.longest ≤ slot.buffer.bytes.length)
    (hcode : Code.parity e.geometry ((slots ++ spare).map (·.buffer.bytes.slice e.bodyStart e.longest)) = some parity) :
    runCode ⟨e.withSlots (slots ++ spare), counters, packet⟩ =
      .ok true ⟨e.withSlots (slots ++ writeBodies e.bodyStart spare parity), counters, packet⟩ := by
  have hreach : (e.withSlots (slots ++ spare)).bodyStart ≤ (e.withSlots (slots ++ spare)).longest ∧
      ∀ slot ∈ (e.withSlots (slots ++ spare)).scratch,
        (e.withSlots (slots ++ spare)).longest ≤ slot.buffer.bytes.length := ⟨hstart, hlong⟩
  have hseen : Code.parity (e.withSlots (slots ++ spare)).geometry ((e.withSlots (slots ++ spare)).scratch.map
      (·.buffer.bytes.slice (e.withSlots (slots ++ spare)).bodyStart (e.withSlots (slots ++ spare)).longest)) =
      some parity := hcode
  rw [runCode, if_neg (not_not.2 hreach), hseen]
  simp only [withSlots, List.take_left' hslots, List.drop_left' hslots]
  rfl

/-- **Computing the parity of a group.** Where `Encoder.protect` gives a sender, the statements leave it. -/
theorem computeParity_eq (counters : Counters) (packet : Bytes) (h : e.protect = .ok (some e')) :
    computeParity ⟨e, counters, packet⟩ = .ok true ⟨e', counters, packet⟩ ∧ e'.longest = e.longest := by
  obtain ⟨⟨hstart, hslots, hused⟩, parity, e₁, spare', hcode, hseal, rfl⟩ := protect_inv h
  set data := (e.scratch.take e.geometry.data).map (·.pad e.longest) with hdata
  set spare := e.scratch.drop e.geometry.data with hspare
  obtain ⟨htotal, hparity⟩ := length_of_parity hcode
  have hsplit : e.geometry.total = e.geometry.data + e.geometry.parity := rfl
  rw [List.length_map, List.length_append] at htotal
  have htake : (e.scratch.take e.geometry.data).length = e.geometry.data := by
    rw [hdata, List.length_map, List.length_take, hspare, List.length_drop] at htotal
    rw [List.length_take]
    omega
  have hdatalen : data.length = e.geometry.data := by rw [hdata, List.length_map, htake]
  have hmem : ∀ slot ∈ e.scratch.take e.geometry.data, slot.used ≤ e.longest ∧
      e.longest ≤ slot.buffer.bytes.length :=
    fun slot hs => ⟨hused slot hs, hslots slot (List.mem_of_mem_take hs)⟩
  -- the slots of the data are padded
  have hpad : forM (List.range' 0 e.geometry.data) padSlot ⟨e, counters, packet⟩ =
      .ok () ⟨e.withSlots (data ++ spare), counters, packet⟩ := by
    have hloop := padSlots_eq counters packet [] spare hmem
    rwa [htake, List.nil_append, List.nil_append, hspare, List.take_append_drop] at hloop
  have hlong : ∀ slot ∈ data ++ spare, e.longest ≤ slot.buffer.bytes.length := by
    intro slot hs
    rcases List.mem_append.1 hs with hs | hs
    · obtain ⟨old, hold, rfl⟩ := List.mem_map.1 hs
      rw [ScratchSlot.length_pad (hmem old hold).1 (hmem old hold).2]
      exact (hmem old hold).2
    · exact hslots slot (List.mem_of_mem_drop hs)
  have hcoded := runCode_eq counters packet hdatalen hstart hlong hcode
  have hstamp := stampSlots_eq counters packet data hseal (by omega) (by
    intro s hs
    have hle := hslots s (List.mem_of_mem_drop hs)
    exact (show e.bodyStart ≤ _ from hstart.trans hle))
  rw [hdatalen, hparity] at hstamp
  constructor
  · rw [computeParity, get_bind, bind_ok hpad, bind_ok hcoded, if_pos rfl, bind_ok hstamp]
    rfl
  · obtain ⟨next, rfl⟩ := sealParity_inv hseal
    rfl

/-- **Closing a full group.** The statements leave what `Encoder.finishGroup` gives, and the parity can be had of it. -/
theorem closeGroup_eq (counters : Counters) (packet : Bytes) (h : e.Holds g offset size bodies)
    (hfull : bodies.length = g.data) (hpos : 0 < width bodies) (hn : e.next = g.seqidAt base x) (continuous : Bool) :
    ∃ e' parity served, e.finishGroup counters continuous = .ok (e', counters, parity) ∧
      e'.Holds g offset size [] ∧ e'.next = g.seqidAt base (x + g.parity) ∧
      closeGroup continuous ⟨e, counters, packet⟩ = .ok served ⟨e', counters, packet⟩ ∧
      (∀ slice ∈ parity, slice.length ≤ size) ∧
      ∀ latest, giveSlices served ⟨{ e' with latest }, counters, packet⟩ =
        .ok parity ⟨{ e' with latest }, counters, packet⟩ := by
  obtain ⟨e', parity, hfin, hholds, hnext, -⟩ := finishGroup_eq h hfull hpos hn counters continuous
  cases continuous with
  | true =>
    -- the code accepts every group that a sender holds
    obtain ⟨e₁, hprotect, hframed, -⟩ := protect_eq h hfull hpos hn
    obtain ⟨hcompute, hlongest⟩ := computeParity_eq counters packet hprotect
    have hfits := h.fits
    have hl := longest_of_full h hfull
    have hfin' : e.finishGroup counters true = .ok (e₁.beginGroup, counters,
        (e₁.scratch.drop e₁.geometry.data).map (·.buffer.bytes.take e₁.longest)) := by
      rw [finishGroup, if_pos rfl, hprotect]
      rfl
    obtain ⟨rfl, -, rfl⟩ : e₁.beginGroup = e' ∧ counters = counters ∧
        (e₁.scratch.drop e₁.geometry.data).map (·.buffer.bytes.take e₁.longest) = parity := by
      simpa using Except.ok.inj (hfin'.symm.trans hfin)
    have hreach : ¬ ∃ slot ∈ e₁.scratch.drop e₁.geometry.data, slot.buffer.bytes.length < e₁.longest := by
      rintro ⟨slot, hslot, hshort⟩
      have hlen := hframed.slot slot (List.mem_of_mem_drop hslot)
      omega
    refine ⟨_, _, some e₁.longest, hfin, hholds, hnext, ?_, ?_, fun latest => if_neg hreach⟩
    · rw [closeGroup, if_pos rfl, bind_ok hcompute]
      rfl
    · intro slice hslice
      obtain ⟨slot, -, rfl⟩ := List.mem_map.1 hslice
      rw [List.length_take]
      omega
  | false =>
    have hadv := advance_eq h.valid h.ceiling_eq hn g.parity
    have hfin' : e.finishGroup counters false =
        .ok (beginGroup { e with next := g.seqidAt base (x + g.parity) }, counters, []) := by
      conv_lhs => rw [finishGroup, if_neg (by simp), h.geometry_eq, hadv]
      rfl
    obtain ⟨rfl, -, rfl⟩ : beginGroup { e with next := g.seqidAt base (x + g.parity) } = e' ∧ counters = counters ∧
        [] = parity := by
      simpa using Except.ok.inj (hfin'.symm.trans hfin)
    have hhand : handOut e.geometry.parity ⟨e, counters, packet⟩ =
        .ok e.next ⟨{ e with next := g.seqidAt base (x + g.parity) }, counters, packet⟩ := by
      conv_lhs => rw [h.geometry_eq]
      exact handOut_eq hadv
    exact ⟨_, _, none, hfin, hholds, hnext, (bind_ok hhand).trans rfl,
      fun slice hslice => absurd hslice List.not_mem_nil, fun latest => rfl⟩

/-! ### The call -/

/-- A sender between two calls: it holds the bodies of a group that is not full, and its next id is below the
ceiling. -/
structure Poised (e : Encoder) (g : Geometry) (offset size : ℕ) : Prop where
  holds : ∃ bodies, e.Holds g offset size bodies ∧ bodies.length < g.data
  below : e.next.toNat < g.ceiling

theorem Holds.poised (h : e.Holds g offset size bodies) (hopen : bodies.length < g.data)
    (hn : e.next = g.seqidAt base x) : e.Poised g offset size where
  holds := ⟨bodies, h, hopen⟩
  below := by
    rw [hn, Geometry.toNat_seqidAt h.valid]
    exact Nat.mod_lt _ (Geometry.ceiling_pos h.valid)

theorem Poised.next_eq (h : e.Poised g offset size) : e.next = g.seqidAt 0 e.next.toNat := by
  rw [Geometry.seqidAt, Nat.zero_add, Nat.mod_eq_of_lt h.below, UInt32.ofNat_toNat]

theorem latest_of_store {n : ℕ} {b : Bytes} (h : e.store n b = .ok e') : e'.latest = e.latest := by
  unfold store at h
  split at h
  · cases h
  · split at h
    · cases h
    · cases h
      rfl

/-- A packet that is refused at once is left alone, and so is everything else. -/
theorem sealPacket_refused {r : Error} (h : e.screen packet.length = .error r) (staleness now : ℕ) :
    sealPacket staleness now ⟨e, counters, packet⟩ = .error r ⟨e, counters, packet⟩ := by
  rw [sealPacket, get_bind]
  apply bind_error
  simp only [h]
  rfl

/-- **The call up to its last body.** Behind their first check, `Encoder.encode` and the statements have the same
sender, which holds one body more, and the same packet. -/
theorem Poised.sealPacket_eq (h : e.Poised g offset size) (hscreen : e.screen packet.length = .ok ())
    (htakes : Takes offset size packet) (counters : Counters) (staleness now : ℕ) :
    ∃ stored bodies sealed x, stored.Holds g offset size bodies ∧ bodies.length ≤ g.data ∧ 0 < width bodies ∧
      stored.next = g.seqidAt 0 x ∧
      e.encode counters packet staleness now = (do
        let done ← if bodies.length = g.data then stored.finishGroup counters (e.continues staleness now)
          else pure (stored, counters, [])
        return ⟨{ done.1 with latest := some now }, done.2.1, sealed, done.2.2⟩) ∧
      sealPacket staleness now ⟨e, counters, packet⟩ = (do
        let length ← if bodies.length = g.data then closeGroup (e.continues staleness now) else pure none
        change fun e => .ok { e with latest := some now }
        giveSlices length : Statement (List Bytes)) ⟨stored, counters, sealed⟩ := by
  obtain ⟨bodies, hholds, hopen⟩ := h.holds
  obtain ⟨e₁, stored, hadv, hstore, hstored, hnext, hframe⟩ := framePacket_eq counters hholds hopen h.next_eq
    htakes
  have hstart : e.bodyStart + sizePrefixLength = offset + framingSize := by
    rw [bodyStart, hholds.offset_eq, Nat.add_assoc]
    rfl
  set b := Frame.encode (packet.drop (offset + framingSize)) with hb
  set sealed : Bytes := packet.take offset ++ Header.toBytes ⟨e.next, .data⟩ ++ b with hsealed
  have hcond : stored.count = stored.geometry.data ↔ (bodies ++ [b]).length = g.data := by
    rw [hstored.count_eq, hstored.geometry_eq]
  have hlatest : stored.continues staleness now = e.continues staleness now := by
    obtain ⟨next, rfl, -⟩ := advance_inv hadv
    rw [continues, latest_of_store hstore, continues]
  have hscreened : check (e.screen packet.length) ⟨e, counters, packet⟩ = .ok () ⟨e, counters, packet⟩ := by
    rw [hscreen]
    rfl
  refine ⟨stored, bodies ++ [b], sealed, _, hstored, ?_, ?_, hnext, ?_, ?_⟩
  · rwa [List.length_append, List.length_singleton]
  · exact width_pos_of_encode (List.mem_append_right _ (List.mem_singleton_self _))
  · unfold encode
    simp only [hscreen, hadv, Checked.ok_bind, hstart, ← hb, hstore, hcond, hholds.offset_eq, ← hsealed]
  · rw [sealPacket, get_bind, bind_ok hscreened, bind_ok hframe, get_bind]
    simp only [hcond, hlatest]

/-- **Behind its first check the call finishes**, and leaves the sender, the counters and the packet that
`Encoder.encode` gives. -/
theorem Poised.sealPacket_sealed (h : e.Poised g offset size) (hscreen : e.screen packet.length = .ok ())
    (htakes : Takes offset size packet) (counters : Counters) (staleness now : ℕ) :
    ∃ s, e.encode counters packet staleness now = .ok s ∧
      sealPacket staleness now ⟨e, counters, packet⟩ = .ok s.parity ⟨s.encoder, s.counters, s.packet⟩ ∧
      s.encoder.Poised g offset size ∧ s.counters = counters ∧ ∀ slice ∈ s.parity, slice.length ≤ size := by
  obtain ⟨stored, bodies, sealed, x, hstored, hle, hpos, hnext, hencode, hrun⟩ :=
    h.sealPacket_eq hscreen htakes counters staleness now
  by_cases hlast : bodies.length = g.data
  · -- the packet completes its group
    obtain ⟨e', parity, served, hfin, hholds', hnext', hclose, hshort, hgive⟩ :=
      closeGroup_eq counters sealed hstored hlast hpos hnext (e.continues staleness now)
    rw [if_pos hlast, hfin] at hencode
    rw [if_pos hlast, bind_ok hclose] at hrun
    have hpoised : Poised { e' with latest := some now } g offset size :=
      Holds.poised { hholds' with } hstored.valid.data_pos hnext'
    exact ⟨_, hencode, hrun.trans (hgive _), hpoised, rfl, hshort⟩
  · -- the group stays open
    rw [if_neg hlast] at hencode hrun
    have hpoised : Poised { stored with latest := some now } g offset size :=
      Holds.poised { hstored with } (lt_of_le_of_ne hle hlast) hnext
    exact ⟨_, hencode, hrun, hpoised, rfl, fun slice hslice => absurd hslice List.not_mem_nil⟩

end Encoder

end PacketFec
