import Mathlib
import PacketFec.Proofs.CodeMatrix
import PacketFec.Proofs.Wire

/-!
# Parity depends on the packets of its group alone

The scratch slots of a sender are used again for every group, and never cleared. The parity slices that a call gives are
views of them, and the caller may write into these until the next call. None of it shows: the bodies of a group are
written anew, padding reaches up to the longest of them, and parity is only taken up to there. So a parity shard is a
row of the code's matrix times the packets of its group, whatever groups and whatever writing went before.

* `Encoder.scribble`: what the caller may do to the parity slices.
* `Encoder.served`: the successful calls of a run with such a caller.
* `Encoder.served_follow`: **the sender follows the successful calls, whatever the caller has written.**
* `Encoder.parity_rows`: **every parity slice is a row of the matrix times the packets of its group.**
-/

namespace PacketFec

/-- A call, and what the caller writes into the parity slices that it gives, from the start of each of them on. -/
structure Turn where
  /-- The call. -/
  call : Call
  /-- The bytes for each slice. -/
  marks : ℕ → Bytes

namespace Encoder

/-- Writing into parity slices, not beyond their ends. The slices are the slots behind the data. -/
def scribble (e : Encoder) (parity : List Bytes) (marks : ℕ → Bytes) : Encoder :=
  { e with scratch := e.scratch.mapIdx fun i slot =>
      if i < e.geometry.data then slot
      else slot.write 0 ((marks (i - e.geometry.data)).take (parity.getD (i - e.geometry.data) []).length) }

/-- The successful calls of a run and their answers, where the caller writes into the parity slices of each answer. A
refused call leaves the sender as it was, and nothing is served behind a fault. -/
def served (e : Encoder) (counters : Counters) : List Turn → List (Call × Sealed)
  | [] => []
  | t :: rest =>
    match e.encode counters t.call.packet t.call.staleness t.call.now with
    | .ok s => (t.call, s) :: (s.encoder.scribble s.parity t.marks).served s.counters rest
    | .error r => if r.IsFault then [] else e.served counters rest

variable {g : Geometry} {offset size base n : ℕ} {e : Encoder} {bodies : List Bytes} {past : List Call}
  {counters : Counters} {parity : List Bytes}

instance : DecidablePred (Takes offset size) := fun packet =>
  decidable_of_iff (offset + framingSize ≤ packet.length ∧ packet.length ≤ size ∧
    packet.length < offset + headerSize + sizePrefixLimit)
    ⟨fun ⟨long, slot, said⟩ => ⟨long, slot, said⟩, fun ⟨long, slot, said⟩ => ⟨long, slot, said⟩⟩

/-! ### Writing into parity slices -/

/-- The slots of the data are out of the caller's reach. -/
theorem scratch_scribble_of_lt {i : ℕ} (hi : i < e.geometry.data) (marks : ℕ → Bytes) :
    (e.scribble parity marks).scratch[i]? = e.scratch[i]? := by
  simp [scribble, List.getElem?_mapIdx, hi]

theorem Framed.scribble (h : e.Framed g offset size) (hshort : ∀ slice ∈ parity, slice.length ≤ size)
    (marks : ℕ → Bytes) : (e.scribble parity marks).Framed g offset size := by
  have hreach : ∀ k, (parity.getD k []).length ≤ size := by
    intro k
    rw [List.getD_eq_getElem?_getD]
    cases hk : parity[k]? with
    | none => exact Nat.zero_le _
    | some slice => exact hshort slice (List.mem_of_getElem? hk)
  refine { h with
    slots := ?_
    slot := ?_ }
  · rw [Encoder.scribble, List.length_mapIdx]
    exact h.slots
  · intro s hs
    obtain ⟨i, hi, rfl⟩ := List.mem_mapIdx.1 hs
    have hlen := h.slot _ (List.getElem_mem hi)
    split
    · exact hlen
    · rw [ScratchSlot.length_write, hlen]
      have := hreach (i - e.geometry.data)
      rw [hlen, List.length_take]
      omega

/-- The bodies that a sender holds are out of the caller's reach. -/
theorem Holds.scribble (h : e.Holds g offset size bodies) (hopen : bodies.length ≤ g.data)
    (hshort : ∀ slice ∈ parity, slice.length ≤ size) (marks : ℕ → Bytes) :
    (e.scribble parity marks).Holds g offset size bodies := by
  refine { h with toFramed := h.toFramed.scribble hshort marks, kept := ?_ }
  intro i b hb
  have hi := (List.getElem?_eq_some_iff.1 hb).1
  rw [scratch_scribble_of_lt (by rw [h.geometry_eq]; omega)]
  exact h.kept i b hb

/-- **The sender stands as before when the caller has written into parity slices.** -/
theorem Follows.scribble (h : e.Follows g offset size base past) (hshort : ∀ slice ∈ parity, slice.length ≤ size)
    (marks : ℕ → Bytes) : (e.scribble parity marks).Follows g offset size base past := by
  have hmod := Nat.mod_lt past.length h.tracks.valid.data_pos
  have hholds := h.tracks.toHolds.scribble (by rw [h.tracks.held]; exact hmod.le) hshort marks
  exact ⟨{ h.tracks with toHolds := hholds }, h.latest⟩

/-! ### What one answer gives -/

section Answer

variable {packet : Bytes} {staleness now : ℕ} {s : Sealed}
  (h : e.Seals g offset size base n bodies counters packet staleness now s)

include h

/-- Behind its header, a packet carries its body. -/
theorem Seals.body :
    s.packet.drop (offset + headerSize) = Frame.encode (packet.drop (offset + framingSize)) ∧
      s.packet.length = offset + headerSize + (Frame.encode (packet.drop (offset + framingSize))).length := by
  have hlong := h.long
  have hdrop := h.drop_packet
  have htake : (packet.take offset).length = offset := by rw [List.length_take]; omega
  rw [← List.drop_drop, hdrop, wireShard, List.drop_left' (Header.length_toBytes _)]
  refine ⟨rfl, ?_⟩
  rw [h.packet_eq, wireShard, List.length_append, List.length_append, Header.length_toBytes, htake, Nat.add_assoc]

/-- A parity slice reaches up to the end of the longest packet, and has its body behind its header. -/
theorem Seals.slice (hheld : bodies.length = n % g.data) {k : ℕ} {slice : Bytes} (hk : s.parity[k]? = some slice) :
    slice.length = offset + headerSize + width (bodies ++ [Frame.encode (packet.drop (offset + framingSize))]) ∧
      slice.drop (offset + headerSize) =
        parityBody g (bodies ++ [Frame.encode (packet.drop (offset + framingSize))]) (g.data + k) := by
  obtain ⟨hlast, -, hdrop⟩ := h.drop_parity hk
  have hfull : (bodies ++ [Frame.encode (packet.drop (offset + framingSize))]).length = g.data := by
    rw [List.length_append, List.length_singleton, hheld, hlast]
  have hbody := length_parityBody hfull (g.data + k)
  have hlen := congrArg List.length hdrop
  have hpos : 0 < headerSize := by decide
  rw [wireShard, List.length_append, Header.length_toBytes, List.length_drop, hbody] at hlen
  refine ⟨by omega, ?_⟩
  rw [← List.drop_drop, hdrop, wireShard, List.drop_left' (Header.length_toBytes _)]

end Answer

/-- One call, and what its caller writes. -/
theorem Follows.serve (h : e.Follows g offset size base past) (counters : Counters) (c : Call) :
    (∃ r, e.encode counters c.packet c.staleness c.now = .error r ∧ ¬ r.IsFault ∧ ¬ Takes offset size c.packet) ∨
      ∃ s, e.encode counters c.packet c.staleness c.now = .ok s ∧ Takes offset size c.packet ∧
        e.Seals g offset size base past.length (openBodies offset g past) counters c.packet c.staleness c.now s ∧
        ∀ marks, (s.encoder.scribble s.parity marks).Follows g offset size base (past ++ [c]) := by
  rcases encode_follows h counters c with hrefused | ⟨s, hs, htakes, hseals, hnext⟩
  · exact .inl hrefused
  refine .inr ⟨s, hs, htakes, hseals, fun marks => hnext.scribble ?_ marks⟩
  intro slice hslice
  obtain ⟨k, hk⟩ := List.getElem?_of_mem hslice
  have hlen := (hseals.slice h.tracks.held hk).1
  have hfits := h.tracks.fits
  have hslot := htakes.slot
  have hlong := htakes.long
  have hframing : framingSize = headerSize + sizePrefixLength := rfl
  rw [width_concat, Frame.length_encode, List.length_drop] at hlen
  omega

/-! ### Runs -/

/-- **Every run of a sender whose caller writes into parity slices.** The calls that are served are those whose packets
are taken, and the state in front of each follows the ones before it. -/
theorem served_follow (h : e.Follows g offset size base past) (counters : Counters) (turns : List Turn) :
    (e.served counters turns).map Prod.fst =
        (turns.map Turn.call).filter (fun c => decide (Takes offset size c.packet)) ∧
      ∀ i c s, (e.served counters turns)[i]? = some (c, s) →
        ∃ e' : Encoder, e'.Follows g offset size base (past ++ ((e.served counters turns).take i).map Prod.fst) ∧
          e'.Seals g offset size base (past.length + i)
            (openBodies offset g (past ++ ((e.served counters turns).take i).map Prod.fst))
            counters c.packet c.staleness c.now s := by
  induction turns generalizing e past with
  | nil => exact ⟨rfl, nofun⟩
  | cons t rest ih =>
    rcases h.serve counters t.call with ⟨r, hr, hfault, hnot⟩ | ⟨s, hs, htakes, hseals, hnext⟩
    · have hserved : e.served counters (t :: rest) = e.served counters rest := by
        simp [served, hr, hfault]
      rw [hserved, List.map_cons, List.filter_cons_of_neg (by simpa using hnot)]
      exact ih h
    · obtain ⟨hcalls, hfollow⟩ := ih (hnext t.marks)
      have hserved : e.served counters (t :: rest) =
          (t.call, s) :: (s.encoder.scribble s.parity t.marks).served counters rest := by
        simp [served, hs, hseals.counters_eq]
      rw [hserved, List.map_cons, List.map_cons, List.filter_cons_of_pos (by simpa using htakes), hcalls]
      refine ⟨rfl, ?_⟩
      intro i c s' hi
      cases i with
      | zero =>
        obtain ⟨rfl, rfl⟩ := Prod.mk.inj (Option.some.inj hi)
        exact ⟨e, by simpa using h, by simpa using hseals⟩
      | succ i =>
        obtain ⟨e', hfol, hseals'⟩ := hfollow i c s' hi
        refine ⟨e', by simpa using hfol, ?_⟩
        simpa [Nat.add_assoc, Nat.add_comm 1] using hseals'

/-- The sealed packets of a group of a run. -/
def groupPackets (g : Geometry) (served : List (Call × Sealed)) (k : ℕ) : List Bytes :=
  ((served.drop (k * g.data)).take g.data).map fun a => a.2.packet

/-- Bodies behind framing of one length reach as far as the packets do. -/
theorem width_eq_of_framed {packets : List Bytes} {start : ℕ} (hne : packets ≠ [])
    (hlong : ∀ p ∈ packets, start ≤ p.length) : width packets = start + width (packets.map (·.drop start)) := by
  apply le_antisymm
  · apply width_le
    intro p hp
    have hstart := hlong p hp
    have hle := length_le_width (List.mem_map_of_mem (f := (·.drop start)) hp)
    rw [List.length_drop] at hle
    omega
  · obtain ⟨p, hp⟩ := List.exists_mem_of_ne_nil packets hne
    have hstart : start ≤ width packets := (hlong p hp).trans (length_le_width hp)
    have hbodies : width (packets.map (·.drop start)) ≤ width packets - start := by
      apply width_le
      intro b hb
      obtain ⟨q, hq, rfl⟩ := List.mem_map.1 hb
      have hle := length_le_width hq
      rw [List.length_drop]
      omega
    omega

open Code in
/-- What the parity of a group is, by its sealed packets. Each slice is as long as the longest packet, and byte position
by byte position it is a row of the matrix of the code times the bodies, each with zeros behind its end. The rows of the
matrix that come first are those of the identity. -/
structure Rows (g : Geometry) (start : ℕ) (packets parity : List Bytes) : Prop where
  packets_length : packets.length = g.data
  parity_length : parity.length = g.parity
  length : ∀ slice ∈ parity, slice.length = width packets
  top : (Code.matrix g).submatrix g.dataPlace id = 1
  row : ∀ (k : Fin g.parity) (i : ℕ), symbol ((parity.getD k []).drop start) i =
    ∑ j : Fin g.data, Code.matrix g (g.parityPlace k) j * symbol ((packets.getD j []).drop start) i

/-- The bodies behind the headers of the packets of a group. -/
theorem map_drop_groupPackets {run : List (Call × Sealed)}
    (hbody : ∀ a ∈ run, a.2.packet.drop (offset + headerSize) = a.1.body offset) (k : ℕ) :
    (groupPackets g run k).map (·.drop (offset + headerSize)) = groupBodies offset g (run.map Prod.fst) k := by
  rw [groupBodies, ← List.map_drop, ← List.map_take, groupPackets, List.map_map, List.map_map]
  refine List.map_congr_left fun a ha => ?_
  exact hbody a (List.mem_of_mem_drop (List.mem_of_mem_take ha))

/-- What a call gives that completes a group, by the packets of the group. -/
theorem Seals.rows {packet : Bytes} {staleness now : ℕ} {s : Sealed} {packets : List Bytes}
    (h : e.Seals g offset size base n bodies counters packet staleness now s) (hg : g.Valid)
    (hheld : bodies.length = n % g.data) (hne : s.parity ≠ [])
    (hpackets : packets.map (·.drop (offset + headerSize)) =
      bodies ++ [Frame.encode (packet.drop (offset + framingSize))])
    (hlong : ∀ p ∈ packets, offset + headerSize ≤ p.length) :
    n % g.data + 1 = g.data ∧ Rows g (offset + headerSize) packets s.parity := by
  obtain ⟨first, hfirst⟩ := List.exists_mem_of_ne_nil _ hne
  obtain ⟨k₀, hk₀⟩ := List.getElem?_of_mem hfirst
  have hlast := (h.drop_parity hk₀).1
  have hlen : packets.length = g.data := by
    have hmap := congrArg List.length hpackets
    rw [List.length_map, List.length_append, List.length_singleton, hheld, hlast] at hmap
    exact hmap
  have hparity : s.parity.length = g.parity := by
    rw [h.length_parity]
    refine if_pos ?_
    by_contra hno
    rw [← List.length_pos_iff, h.length_parity, if_neg hno] at hne
    exact lt_irrefl 0 hne
  have hpos : packets ≠ [] := by
    have hd := hg.data_pos
    rw [← List.length_pos_iff]
    omega
  have hwidth := width_eq_of_framed hpos hlong
  rw [hpackets] at hwidth
  refine ⟨hlast, hlen, hparity, ?_, Code.matrix_data hg, ?_⟩
  · intro slice hslice
    obtain ⟨k, hk⟩ := List.getElem?_of_mem hslice
    rw [(h.slice hheld hk).1, hwidth]
  · intro k i
    have hk : (k : ℕ) < s.parity.length := by rw [hparity]; exact k.2
    have hslice := (h.slice hheld (List.getElem?_eq_getElem hk)).2
    have hbody : ∀ j, (packets.getD j []).drop (offset + headerSize) =
        (packets.map (·.drop (offset + headerSize))).getD j [] := by
      intro j
      rw [List.getD_eq_getElem?_getD, List.getD_eq_getElem?_getD, List.getElem?_map]
      cases packets[j]? <;> simp
    simp only [hbody, hpackets]
    rw [List.getD_eq_getElem _ _ hk, hslice]
    exact symbol_parityBody hg (by rw [← hpackets, List.length_map, hlen]) k i

/-- **Parity depends on the packets of its group alone.** Take any sender, started anywhere, any calls, and a caller
that writes what it likes into the parity slices that it is given. A call is served exactly if its packet is taken.
Where it gives parity, it completes a group, and the parity is that of the packets of this group. -/
theorem parity_rows {pool pool' : BufferPool} (h : create g offset pool = .ok (e, pool')) (seqid : UInt32)
    (counters : Counters) (turns : List Turn) :
    ∃ e₀, e.startAt seqid = .ok e₀ ∧
      (e₀.served counters turns).map Prod.fst =
        (turns.map Turn.call).filter (fun c => decide (Takes offset pool.bufferSize c.packet)) ∧
      ∀ n c s, (e₀.served counters turns)[n]? = some (c, s) → s.parity ≠ [] → n % g.data + 1 = g.data ∧
        Rows g (offset + headerSize) (groupPackets g (e₀.served counters turns) (n / g.data)) s.parity := by
  obtain ⟨e₀, hstart, hfollows, -⟩ := follows_nil h seqid
  have hg := hfollows.tracks.valid
  obtain ⟨hcalls, hserved⟩ := served_follow hfollows counters turns
  refine ⟨e₀, hstart, hcalls, ?_⟩
  intro n c s hn hne
  set run := e₀.served counters turns with hrun
  obtain ⟨e', hfol, hseals⟩ := hserved n c s hn
  simp only [List.nil_append, List.length_nil, Nat.zero_add] at hfol hseals
  have hlen : ((run.take n).map Prod.fst).length = n := by
    have hlt := (List.getElem?_eq_some_iff.1 hn).1
    rw [List.length_map, List.length_take]
    omega
  have hheld := hfol.tracks.held
  rw [hlen] at hheld
  have hbody : ∀ a ∈ run, a.2.packet.drop (offset + headerSize) = a.1.body offset ∧
      offset + headerSize ≤ a.2.packet.length := by
    rintro ⟨c', s'⟩ ha
    obtain ⟨i, hi⟩ := List.getElem?_of_mem ha
    obtain ⟨_, -, hseals'⟩ := hserved i c' s' hi
    obtain ⟨hdrop, hlength⟩ := hseals'.body
    exact ⟨hdrop, by rw [hlength]; exact Nat.le_add_right _ _⟩
  have hlast : n % g.data + 1 = g.data := by
    obtain ⟨first, hfirst⟩ := List.exists_mem_of_ne_nil _ hne
    obtain ⟨k, hk⟩ := List.getElem?_of_mem hfirst
    exact (hseals.drop_parity hk).1
  refine hseals.rows hg hheld hne ?_ ?_
  · have hcall : (run.map Prod.fst)[n]? = some c := by rw [List.getElem?_map, hn]; rfl
    rw [map_drop_groupPackets (fun a ha => (hbody a ha).1), ← openBodies_append hcall hlast, List.map_take]
    rfl
  · intro p hp
    obtain ⟨a, ha, rfl⟩ := List.mem_map.1 hp
    exact (hbody a (List.mem_of_mem_drop (List.mem_of_mem_take ha))).2

/-- Calls of which the third is refused. The second group is shorter than the first one, and the caller has filled its
parity slot with other bytes. -/
def shrinkingTurns : List Turn :=
  [⟨⟨.replicate 12 7, 5, 0⟩, fun _ => []⟩, ⟨⟨.replicate 30 8, 5, 1⟩, fun _ => .replicate 99 255⟩,
    ⟨⟨[1], 5, 2⟩, fun _ => [3]⟩, ⟨⟨.replicate 9 9, 5, 3⟩, fun _ => []⟩, ⟨⟨.replicate 11 4, 5, 4⟩, fun _ => [1, 2]⟩]

/-- A sender of groups of two, and the parity of its second group. -/
theorem parity_rows_of_shrinking_turns : ∃ e pool' e₀ c s, create ⟨2, 1⟩ 1 (.create 32 8) = .ok (e, pool') ∧
    e.startAt 6 = .ok e₀ ∧ (e₀.served .zero shrinkingTurns)[3]? = some (c, s) ∧ s.parity.length = 1 ∧
      Rows ⟨2, 1⟩ 7 (groupPackets ⟨2, 1⟩ (e₀.served .zero shrinkingTurns) 1) s.parity := by
  have hcreate : create ⟨2, 1⟩ 1 (.create 32 8) = .ok _ := rfl
  obtain ⟨e₀, hstart, -, hrows⟩ := parity_rows hcreate 6 .zero shrinkingTurns
  have hparity : (e₀.served .zero shrinkingTurns)[3]?.map (fun a => a.2.parity.length) = some 1 := by
    cases hstart
    decide +kernel
  obtain ⟨⟨c, s⟩, hs, hlen⟩ := Option.map_eq_some_iff.1 hparity
  refine ⟨_, _, e₀, c, s, hcreate, hstart, hs, hlen, (hrows 3 c s hs ?_).2⟩
  rw [← List.length_pos_iff, hlen]
  exact Nat.one_pos

end Encoder

end PacketFec
