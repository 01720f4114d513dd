import Mathlib
import PacketFec.Proofs.Transmission

/-!
# What a sender puts on the wire

The shards of a run go on the wire without their outer framing: each packet, and behind it the parity that it
completed. A shard on the wire is determined by its group and its place there.

* `Encoder.wire`: the shards of a run, in order.
* `Genuine`: the shard at a place of a group, as the bodies of the group determine it.
* `Encoder.genuine_of_mem_wire`: **every shard on the wire is genuine.**
* `Frame.payload?_resize`: a body that is filled up still gives back its payload.
-/

namespace PacketFec

/-- A shard on the wire, and where it belongs. -/
structure WireShard where
  /-- The group, counted from the start of the stream. -/
  group : ℕ
  /-- The place in the group. -/
  place : ℕ
  /-- The bytes. -/
  bytes : Bytes
  deriving DecidableEq

/-- The bodies of a group of a run. -/
def groupBodies (offset : ℕ) (g : Geometry) (past : List Call) (k : ℕ) : List Bytes :=
  ((past.drop (k * g.data)).take g.data).map (Call.body offset)

section

variable {g : Geometry} {offset : ℕ} {past : List Call}

theorem length_groupBodies (k : ℕ) :
    (groupBodies offset g past k).length = min g.data (past.length - k * g.data) := by
  rw [groupBodies, List.length_map, List.length_take, List.length_drop]

theorem groupBodies_getElem? {k p : ℕ} (hp : p < g.data) :
    (groupBodies offset g past k)[p]? = past[k * g.data + p]?.map (Call.body offset) := by
  rw [groupBodies, List.getElem?_map, List.getElem?_take_of_lt hp, List.getElem?_drop]

/-- The bodies of the group that a packet completes are those kept before it and its own. -/
theorem openBodies_append {i : ℕ} {c : Call} (hi : past[i]? = some c)
    (hlast : i % g.data + 1 = g.data) :
    openBodies offset g (past.take i) ++ [c.body offset] = groupBodies offset g past (i / g.data) := by
  have hlt := (List.getElem?_eq_some_iff.1 hi).1
  have hdiv := Nat.div_add_mod' i g.data
  have hlen : (past.take i).length = i := by rw [List.length_take]; omega
  have hdrop : (past.take i).drop (i / g.data * g.data) =
      (past.drop (i / g.data * g.data)).take (i % g.data) := by
    rw [List.drop_take]
    congr 1
    omega
  have hc : (past.drop (i / g.data * g.data))[i % g.data]? = some c := by
    rw [List.getElem?_drop, hdiv, hi]
  have htake := List.take_add_one (l := past.drop (i / g.data * g.data)) (i := i % g.data)
  rw [hlast, hc] at htake
  rw [openBodies, hlen, hdrop, groupBodies, htake, List.map_append]
  rfl

end

/-- A shard that the sender of a stream puts on the wire: it stands at a place of its group, and the bodies of
the group determine it. For a parity shard the group must be complete. -/
structure Genuine (g : Geometry) (base : ℕ) (bodies : ℕ → List Bytes) (w : WireShard) : Prop where
  place_lt : w.place < g.total
  bytes_eq : w.bytes = wireShard g base (g.place w.group w.place)
    (if w.place < g.data then .data else .parity) (shardBody g (bodies w.group) w.place)
  known : w.place < (bodies w.group).length ∨ (bodies w.group).length = g.data

/-- A shard on the wire as a receiver reads it. -/
def WireShard.shard (g : Geometry) (base : ℕ) (w : WireShard) : Shard :=
  ⟨⟨g.seqidAt base (g.place w.group w.place), if w.place < g.data then .data else .parity⟩, w.bytes⟩

theorem Genuine.parse_eq {g : Geometry} {base : ℕ} {bodies : ℕ → List Bytes} {w : WireShard}
    (h : Genuine g base bodies w) : Shard.parse w.bytes = .ok (w.shard g base) := by
  rw [WireShard.shard, h.bytes_eq, wireShard, Shard.parse, Header.read_toBytes_append]
  rfl

theorem Genuine.drop_header {g : Geometry} {base : ℕ} {bodies : ℕ → List Bytes} {w : WireShard}
    (h : Genuine g base bodies w) : w.bytes.drop headerSize = shardBody g (bodies w.group) w.place := by
  rw [h.bytes_eq, wireShard, List.drop_left' (Header.length_toBytes _)]

namespace Encoder

variable {g : Geometry} {offset size base : ℕ} {e : Encoder}

/-- The shards of a run as they go on the wire. -/
def wire (g : Geometry) (offset : ℕ) (sent : List (Call × Sealed)) : List WireShard :=
  sent.zipIdx.flatMap fun a =>
    ⟨a.2 / g.data, a.2 % g.data, a.1.2.packet.drop offset⟩ ::
      a.1.2.parity.mapIdx fun k slice => ⟨a.2 / g.data, g.data + k, slice.drop offset⟩

theorem mem_wire {sent : List (Call × Sealed)} {w : WireShard} (h : w ∈ wire g offset sent) :
    ∃ i c s, sent[i]? = some (c, s) ∧ w.group = i / g.data ∧
      (w.place = i % g.data ∧ w.bytes = s.packet.drop offset ∨
        ∃ k slice, s.parity[k]? = some slice ∧ w.place = g.data + k ∧ w.bytes = slice.drop offset) := by
  obtain ⟨⟨⟨c, s⟩, i⟩, hmem, hw⟩ := List.mem_flatMap.1 h
  have hi := List.mem_zipIdx_iff_getElem?.1 hmem
  refine ⟨i, c, s, hi, ?_⟩
  rcases List.mem_cons.1 hw with rfl | hw
  · exact ⟨rfl, .inl ⟨rfl, rfl⟩⟩
  · obtain ⟨k, hk⟩ := List.getElem?_of_mem hw
    rw [List.getElem?_mapIdx, Option.map_eq_some_iff] at hk
    obtain ⟨slice, hs, rfl⟩ := hk
    exact ⟨rfl, .inr ⟨k, slice, hs, rfl, rfl⟩⟩

/-- **Every shard on the wire is genuine.** -/
theorem genuine_of_mem_wire (h : e.Follows g offset size base []) (counters : Counters) (calls : List Call)
    {w : WireShard} (hw : w ∈ wire g offset (e.sent counters calls)) :
    Genuine g base (groupBodies offset g ((e.sent counters calls).map Prod.fst)) w := by
  have hg := h.tracks.valid
  have hd := hg.data_pos
  have htotal : g.total = g.data + g.parity := rfl
  set past := (e.sent counters calls).map Prod.fst with hpast
  obtain ⟨i, c, s, hi, hgroup, hw⟩ := mem_wire hw
  obtain ⟨e', -, hseals⟩ := (answers_follow h counters calls).2.2 i c s hi
  simp only [List.nil_append, List.length_nil, Nat.zero_add] at hseals
  have hmod := Nat.mod_lt i hd
  have hdiv := Nat.div_add_mod' i g.data
  have hpi : past[i]? = some c := by rw [hpast, List.getElem?_map, hi]; rfl
  have hilt := (List.getElem?_eq_some_iff.1 hpi).1
  have hlen : (groupBodies offset g past (i / g.data)).length = min g.data (past.length - i / g.data * g.data) :=
    length_groupBodies _
  have hbody : (groupBodies offset g past (i / g.data))[i % g.data]? = some (c.body offset) := by
    rw [groupBodies_getElem? hmod, hdiv, hpi]
    rfl
  -- a packet carries its own body, and parity is only there once its group is complete
  rcases hw with ⟨hplace, hbytes⟩ | ⟨k, slice, hslice, hplace, hbytes⟩
  · refine ⟨by omega, ?_, .inl ?_⟩
    · rw [hbytes, hseals.drop_packet, hgroup, hplace, if_pos hmod, shardBody, if_pos hmod,
        List.getD_eq_getElem?_getD, hbody]
      rfl
    · rw [hgroup, hplace]
      exact (List.getElem?_eq_some_iff.1 hbody).1
  · obtain ⟨hlast, hk, hdrop⟩ := hseals.drop_parity hslice
    have hbodies : openBodies offset g (past.take i) ++ [c.body offset] = _ := openBodies_append hpi hlast
    rw [List.map_take, ← hpast] at hdrop
    refine ⟨by omega, ?_, .inr ?_⟩
    · rw [hbytes, hgroup, hplace, if_neg (by omega), shardBody, if_neg (by omega), ← hbodies, hdrop]
      rfl
    · rw [hgroup, hlen]
      omega

end Encoder

namespace Frame

/-- A framed payload that is filled up gives back the payload. -/
theorem payload?_resize {payload : Bytes} (hshort : (encode payload).length < sizePrefixLimit) {n : ℕ}
    (hn : (encode payload).length ≤ n) : payload? ((encode payload).resize n 0) = some payload := by
  rw [length_encode] at hshort
  rw [Bytes.resize, List.take_of_length_le hn]
  exact payload?_encode_append hshort _

end Frame

end PacketFec
