import Mathlib
import PacketFec.Proofs.Eviction
import PacketFec.Proofs.SessionRuns
import PacketFec.Proofs.Tally

/-!
# The counters tell the truth

What a packet does can be told from its receiver before and after it: whether it went into a set, whether it filled the
set up, and what the members of the set were. The counters of a session are the numbers of these events, over all
packets of all receivers, whatever the packets are.

* `Taking`: a packet with its receiver before and after it.
* `Taking.joins`, `Taking.fills`, `Taking.completes`, `Taking.refuses`: the events.
* `ShardSet.Filed`: what holds of the members of a set.
* `Decoder.taking_raised`: **the events of a packet are what it adds to the counters.**
* `Session.counting`: **the counters of a session are the numbers of events**, over every run.
-/

namespace PacketFec

/-- The kind of a packet, if it is a shard. -/
def Shard.kindOf? (packet : Bytes) : Option Kind := (Shard.parse packet).toOption.map Shard.kind

theorem Shard.kindOf?_eq {packet : Bytes} {shard : Shard} (h : Shard.parse packet = .ok shard) :
    Shard.kindOf? packet = some shard.kind := by
  rw [kindOf?, h]
  rfl

/-! ### The members of a set -/

namespace ShardSet

variable {s : ShardSet} {g : Geometry} {i : ℕ} {b : Buffer}

/-- A set that is not drained is not full, and each of its members is of the kind of its slot. -/
structure Filed (s : ShardSet) (g : Geometry) : Prop where
  vacant : s.drained = false → s.members < g.data
  kinds : ∀ (i : ℕ) (b : Buffer), s.slots[i]? = some (some b) →
    Shard.kindOf? b.bytes = some (if i < g.data then .data else .parity)

theorem filed_empty (hg : g.Valid) : (empty g.total).Filed g where
  vacant _ := hg.data_pos
  kinds i b h := by
    rw [empty, List.getElem?_replicate] at h
    split at h <;> simp at h

theorem filed_drain (s : ShardSet) (g : Geometry) : s.drain.Filed g where
  vacant := nofun
  kinds i b h := by
    rw [drain, List.getElem?_replicate] at h
    split at h <;> simp at h

/-- A shard put into a slot is of the kind of the slot. -/
theorem kinds_insert (h : s.Filed g) (hb : Shard.kindOf? b.bytes = some (if i < g.data then .data else .parity))
    (j : ℕ) (c : Buffer) (hc : (s.insert i b).slots[j]? = some (some c)) :
    Shard.kindOf? c.bytes = some (if j < g.data then .data else .parity) := by
  rw [insert, List.getElem?_set] at hc
  split at hc
  · rename_i hij
    subst hij
    split at hc
    · cases hc
      exact hb
    · cases hc
  · exact h.kinds j c hc

/-- The slots of the data part are filled or count as missing. -/
theorem countP_isNone_add_length {slots : List (Option Buffer)} {n : ℕ} (h : n ≤ slots.length) :
    (slots.take n).countP Option.isNone + ((slots.take n).filterMap id).length = n := by
  have hcount := List.length_eq_countP_add_countP Option.isNone (l := slots.take n)
  have hsome : (slots.take n).countP (fun o => decide ¬ o.isNone = true) =
      (slots.take n).countP fun o => (id o).isSome := by
    congr 1
    funext o
    cases o <;> rfl
  rw [List.length_take, min_eq_left h, hsome, ← List.length_filterMap_eq_countP] at hcount
  exact hcount.symm

/-- The members of a set that a shard is put into. -/
theorem mem_buffers_insert (hi : s.slots[i]? = some none) {c : Buffer} :
    c ∈ (s.insert i b).buffers ↔ c ∈ s.buffers ∨ c = b := by
  obtain ⟨l₁, l₂, h1, h2⟩ := buffers_set hi b
  rw [buffers, buffers, h1, insert, h2, List.mem_append, List.mem_append, List.mem_cons]
  tauto

/-- In a full set there are as many members of parity as data shards are missing, so none is missing exactly where
all members are data. -/
theorem lostIn_eq_zero_iff (hs : s.Sound g) (hfull : s.members = g.data)
    (hkinds : ∀ (i : ℕ) (b : Buffer), s.slots[i]? = some (some b) →
      Shard.kindOf? b.bytes = some (if i < g.data then .data else .parity)) :
    Decoder.lostIn g (Decoder.bodiesIn s.slots) = 0 ↔ ∀ b ∈ s.buffers, Shard.kindOf? b.bytes = some .data := by
  have hsplit : s.buffers = (s.slots.take g.data).filterMap id ++ (s.slots.drop g.data).filterMap id := by
    rw [← List.filterMap_append, List.take_append_drop, buffers]
  have htotal : g.total = g.data + g.parity := rfl
  have hfront := countP_isNone_add_length (n := g.data) (by rw [hs.length_eq]; omega)
  have hmembers := hs.members_eq
  rw [hfull, hsplit, List.length_append] at hmembers
  rw [Decoder.lostIn, Decoder.bodiesIn, Decoder.countP_isNone_take]
  constructor
  · -- all places are taken by data, so no member is left for the parity part
    intro hlost b hb
    have hback : (s.slots.drop g.data).filterMap id = [] := List.eq_nil_of_length_eq_zero (by omega)
    rw [hsplit, hback, List.append_nil] at hb
    obtain ⟨o, ho, rfl⟩ := List.mem_filterMap.1 hb
    obtain ⟨i, hi, hio⟩ := List.mem_take_iff_getElem.1 ho
    have hkind := hkinds i b (by rw [List.getElem?_eq_getElem (by omega), hio])
    rwa [if_pos (by omega)] at hkind
  · intro hall
    have hback : (s.slots.drop g.data).filterMap id = [] := by
      rw [List.filterMap_eq_nil_iff]
      intro o ho
      obtain ⟨i, hi, hio⟩ := List.mem_iff_getElem.1 ho
      cases o with
      | none => rfl
      | some b =>
        have hslot : s.slots[g.data + i]? = some (some b) := by
          rw [← List.getElem?_drop, List.getElem?_eq_getElem hi, hio]
        have hkind := hkinds _ b hslot
        have hmem : b ∈ s.buffers := List.mem_filterMap.2 ⟨some b, List.mem_of_getElem? hslot, rfl⟩
        rw [hall b hmem, if_neg (by omega)] at hkind
        cases hkind
    rw [hback, List.length_nil] at hmembers
    omega

/-- The code refuses a set that is full exactly where all bodies in it are empty. -/
theorem restore_eq_none_iff (hg : g.Valid) (hs : s.Sound g) (hfull : g.data ≤ s.members) :
    Code.restore g (levelled (Decoder.bodiesIn s.slots)) = none ↔ ∀ b ∈ s.buffers, b.bytes.drop headerSize = [] := by
  have hbodies : (Decoder.bodiesIn s.slots).filterMap id = s.buffers.map (·.bytes.drop headerSize) := by
    rw [Decoder.bodiesIn, filterMap_map_map]
    rfl
  constructor
  · intro hnone b hb
    refine body_nil_of_restore hg ?_ ?_ hnone _ (hbodies ▸ List.mem_map_of_mem hb)
    · rw [Decoder.bodiesIn, List.length_map, hs.length_eq]
    · rw [hbodies, List.length_map, ← hs.members_eq]
      exact hfull
  · intro hempty
    unfold Code.restore
    simp only
    split
    · rw [Code.map_snd_present, filterMap_levelled, hbodies]
      have hnil : ∀ x ∈ evened (s.buffers.map (·.bytes.drop headerSize)), x = [] := by
        intro x hx
        apply List.eq_nil_of_length_eq_zero
        rw [length_of_mem_evened hx]
        apply Nat.le_zero.1
        apply width_le
        intro y hy
        obtain ⟨b, hb, rfl⟩ := List.mem_map.1 hy
        rw [hempty b hb]
        exact le_rfl
      cases hcases : evened (s.buffers.map (·.bytes.drop headerSize)) with
      | nil => rfl
      | cons x rest =>
        have hx := hnil x (by rw [hcases]; exact List.mem_cons_self ..)
        rw [hx]
        rfl
    · rfl

end ShardSet

/-! ### Packets and what they do -/

namespace Decoder

/-- The shards held of a group. -/
def heldOf (d : Decoder) (group : ℕ) : List Bytes :=
  ((d.sets.get? group).map fun set => set.buffers.map (·.bytes)).getD []

/-- Whether a group has a set that is drained. -/
def isSpent (d : Decoder) (group : ℕ) : Bool := ((d.sets.get? group).map (·.drained)).getD false

end Decoder

/-- A packet that a receiver has taken, with the receiver before and after it and what it has given away. -/
structure Taking where
  before : Decoder
  packet : Bytes
  after : Decoder
  recovered : List Buffer

namespace Taking

/-- The group that the packet belongs to, if it is a shard. -/
def group? (k : Taking) : Option ℕ := (Shard.parse k.packet).toOption.map k.before.groupId

/-- Whether the packet drains the set of its group. -/
def drains (k : Taking) : Bool := k.group?.any fun group => !k.before.isSpent group && k.after.isSpent group

/-- Whether the packet goes into the set of its group: the set holds one shard more behind it, or is drained. -/
def joins (k : Taking) : Bool :=
  k.drains || k.group?.any fun group => (k.after.heldOf group).length = (k.before.heldOf group).length + 1

/-- The members of the set of the group, the packet among them. -/
def members (k : Taking) : List Bytes := (k.group?.map k.before.heldOf).getD [] ++ [k.packet]

/-- Whether the packet fills up the set of its group. -/
def fills (k : Taking) : Bool := k.joins && k.members.length = k.before.geometry.data

/-- Whether a parity packet goes into a set. -/
def joinsParity (k : Taking) : Bool := k.joins && Shard.kindOf? k.packet = some .parity

/-- Whether a set is full of which all members are data. -/
def completes (k : Taking) : Bool := k.fills && k.members.all fun b => Shard.kindOf? b = some .data

/-- Whether a set is full of which some member is parity and all bodies are empty. -/
def refuses (k : Taking) : Bool :=
  k.fills && k.members.any (fun b => Shard.kindOf? b = some .parity) && k.members.all fun b => b.drop headerSize = []

/-- The events of a packet, as what they add to the counters. -/
def tally (k : Taking) : Counter → ℕ
  | .recovered => k.recovered.length
  | .parityShards => k.joinsParity.toNat
  | .fullShardSets => k.completes.toNat
  | .errors => k.refuses.toNat
  | _ => 0

end Taking

namespace Decoder

variable {d : Decoder} {shared : Shared} {t : Decoded} {packet : Bytes} {shard : Shard} {b : Buffer}

/-- All sets are filed in the geometry of their receiver. -/
def Filed (d : Decoder) : Prop := ∀ entry ∈ d.sets, entry.2.Filed d.geometry

theorem filed_setOf (hg : d.geometry.Valid) (h : d.Filed) (shard : Shard) : (d.setOf shard).Filed d.geometry := by
  unfold setOf
  cases hset : d.sets.get? (d.groupId shard) with
  | none => exact ShardSet.filed_empty hg
  | some set => exact h _ (SetTable.mem_of_get? hset)

/-- A shard at its place is of the kind of its slot. -/
theorem kindOf?_of_inPlace (hparse : Shard.parse packet = .ok shard) (hplace : d.InPlace shard) :
    Shard.kindOf? packet = some (if d.position shard < d.geometry.data then .data else .parity) := by
  rw [Shard.kindOf?_eq hparse]
  unfold InPlace at hplace
  split
  · rename_i hlt
    rw [hplace.1 hlt]
  · rename_i hge
    cases hkind : shard.kind with
    | data => exact absurd (hplace.2 hkind) hge
    | parity => rfl

/-- A packet keeps the sets filed. -/
theorem Takes.filed (hd : d.Sound) (h : d.Filed) (ht : d.Takes shared packet t) : t.decoder.Filed := by
  cases ht with
  | refused e hparse hdec hrec => rwa [hdec]
  | dropped shard hparse hplace hold hdec hrec => exact hdec ▸ h
  | settled shard b hparse hplace hnew hset =>
    rw [hset.decoder_eq]
    intro entry hentry
    rcases (mem_settled hentry).1 with rfl | hold
    · have hfiled := filed_setOf hd.valid h shard
      have hbytes : b.bytes = packet := hset.bytes_eq.trans (parse_eq_ok hparse).2.1
      have hkinds := ShardSet.kinds_insert hfiled (hbytes ▸ kindOf?_of_inPlace hparse hplace)
      unfold filled
      simp only
      split
      · exact ShardSet.filed_drain _ _
      · rename_i hopen
        exact ⟨fun _ => Nat.not_le.1 hopen, hkinds⟩
    · exact h entry hold
  | kept shard hparse hplace hdet hdec hrec => exact hdec ▸ h
  | retuned shard g hparse hplace hdet hne hdec hrec => exact hdec ▸ nofun

/-- The set of a shard that is settled is not evicted. -/
theorem get?_settled (hg : d.geometry.Valid) {group : ℕ} (hnew : d.behind group d.geometry.ring = false)
    (set : ShardSet) : (d.settled group set).sets.get? group = some set := by
  have hkept : (!lags (d.newest group) d.geometry.ring group) = true := by
    rw [lags, groupDistance_newest hg hnew]
    rfl
  exact (SetTable.get?_filter (fun id => !lags (d.newest group) d.geometry.ring id) hkept).trans
    (SetTable.get?_put_self _ _ _)

end Decoder

/-! ### The events of a packet -/

namespace Taking

variable {k : Taking} {s : ShardSet}

/-- The events one by one. -/
theorem tally_eq (k : Taking) : k.tally = Pi.single .parityShards k.joinsParity.toNat +
    (Pi.single .recovered k.recovered.length + Pi.single .fullShardSets k.completes.toNat +
      Pi.single .errors k.refuses.toNat) := by
  funext c
  cases c <;> simp [tally]

/-- A packet that leaves the sets as they were, or without any, goes into none of them. -/
theorem joins_of_sets (h : k.after.sets = k.before.sets ∨ k.after.sets = []) :
    k.drains = false ∧ k.joins = false := by
  have hdrains : k.drains = false := by
    unfold drains
    cases k.group? with
    | none => rfl
    | some group =>
      rcases h with h | h
      · rw [Option.any_some, Decoder.isSpent, Decoder.isSpent, h]
        exact Bool.not_and_self _
      · rw [Option.any_some, Decoder.isSpent, Decoder.isSpent, h]
        exact Bool.and_false _
  refine ⟨hdrains, ?_⟩
  unfold joins
  rw [hdrains, Bool.false_or]
  cases k.group? with
  | none => rfl
  | some group =>
    rcases h with h | h
    · rw [Option.any_some, Decoder.heldOf, Decoder.heldOf, h]
      exact decide_eq_false (Nat.succ_ne_self _).symm
    · rw [Option.any_some, Decoder.heldOf, h]
      exact decide_eq_false (Nat.succ_ne_zero _).symm

theorem tally_of_not_joins (h : k.joins = false) (hrec : k.recovered = []) :
    k.tally = 0 ∧ k.completes = false ∧ k.refuses = false := by
  have hfills : k.fills = false := by rw [fills, h, Bool.false_and]
  have hcompletes : k.completes = false := by rw [completes, hfills, Bool.false_and]
  have hrefuses : k.refuses = false := by rw [refuses, hfills, Bool.false_and, Bool.false_and]
  have hparity : k.joinsParity = false := by rw [joinsParity, h, Bool.false_and]
  refine ⟨?_, hcompletes, hrefuses⟩
  rw [tally_eq, hparity, hrec, hcompletes, hrefuses]
  simp

/-- A packet that goes into a set, which is the set `s` with the packet in it. -/
structure Joins (k : Taking) (s : ShardSet) : Prop where
  sound : s.Sound k.before.geometry
  kinds : ∀ (i : ℕ) (b : Buffer), s.slots[i]? = some (some b) →
    Shard.kindOf? b.bytes = some (if i < k.before.geometry.data then .data else .parity)
  length_eq : k.members.length = s.members
  mem_iff : ∀ x, x ∈ k.members ↔ ∃ b ∈ s.buffers, b.bytes = x
  le : s.members ≤ k.before.geometry.data
  joins_eq : k.joins = true
  drains_eq : k.drains = decide (s.members = k.before.geometry.data)

theorem Joins.fills_eq (h : k.Joins s) : k.fills = decide (s.members = k.before.geometry.data) := by
  rw [fills, h.joins_eq, h.length_eq, Bool.true_and]

theorem Joins.forall_members (h : k.Joins s) (p : Bytes → Prop) :
    (∀ x ∈ k.members, p x) ↔ ∀ b ∈ s.buffers, p b.bytes := by
  constructor
  · intro hall b hb
    exact hall _ ((h.mem_iff _).2 ⟨b, hb, rfl⟩)
  · intro hall x hx
    obtain ⟨b, hb, rfl⟩ := (h.mem_iff x).1 hx
    exact hall b hb

/-- A packet that does not fill up its set is counted itself, where it is parity. -/
theorem Joins.open_ (h : k.Joins s) (hopen : s.members < k.before.geometry.data) :
    k.drains = false ∧ k.completes = false ∧ k.refuses = false := by
  have hfills : k.fills = false := by rw [h.fills_eq, decide_eq_false hopen.ne]
  exact ⟨by rw [h.drains_eq, decide_eq_false hopen.ne], by rw [completes, hfills, Bool.false_and],
    by rw [refuses, hfills, Bool.false_and, Bool.false_and]⟩

/-- A set that is full is complete where no data shard is missing. -/
theorem Joins.completes_iff (h : k.Joins s) (hfull : s.members = k.before.geometry.data) :
    k.completes = true ↔ Decoder.lostIn k.before.geometry (Decoder.bodiesIn s.slots) = 0 := by
  rw [ShardSet.lostIn_eq_zero_iff h.sound hfull h.kinds, completes, h.fills_eq, decide_eq_true hfull, Bool.true_and,
    List.all_eq_true]
  simp only [decide_eq_true_eq]
  exact h.forall_members fun x => Shard.kindOf? x = some .data

/-- A set that is full counts as refused where a data shard is missing and the code refuses it. -/
theorem Joins.refuses_iff (hg : k.before.geometry.Valid) (h : k.Joins s)
    (hfull : s.members = k.before.geometry.data) : k.refuses = true ↔
      Decoder.lostIn k.before.geometry (Decoder.bodiesIn s.slots) ≠ 0 ∧
        Code.restore k.before.geometry (levelled (Decoder.bodiesIn s.slots)) = none := by
  have hparity : (∃ x ∈ k.members, Shard.kindOf? x = some .parity) ↔
      Decoder.lostIn k.before.geometry (Decoder.bodiesIn s.slots) ≠ 0 := by
    rw [ne_eq, ShardSet.lostIn_eq_zero_iff h.sound hfull h.kinds]
    push Not
    constructor
    · rintro ⟨x, hx, hkind⟩
      obtain ⟨b, hb, rfl⟩ := (h.mem_iff x).1 hx
      exact ⟨b, hb, by rw [hkind]; nofun⟩
    · rintro ⟨b, hb, hkind⟩
      obtain ⟨o, ho, hob⟩ := List.mem_filterMap.1 hb
      obtain rfl : o = some b := hob
      obtain ⟨i, hi⟩ := List.getElem?_of_mem ho
      have hslot := h.kinds i b hi
      refine ⟨b.bytes, (h.mem_iff _).2 ⟨b, hb, rfl⟩, ?_⟩
      split at hslot
      · exact absurd hslot hkind
      · exact hslot
  rw [ShardSet.restore_eq_none_iff hg h.sound hfull.ge, refuses, h.fills_eq, decide_eq_true hfull, Bool.true_and,
    Bool.and_eq_true, List.any_eq_true, List.all_eq_true]
  simp only [decide_eq_true_eq]
  exact and_congr hparity (h.forall_members fun x => x.drop headerSize = [])

end Taking

namespace Decoder

variable {d : Decoder} {shared : Shared} {t : Decoded} {packet : Bytes} {shard : Shard} {b : Buffer}

theorem heldOf_groupId (d : Decoder) (shard : Shard) :
    d.heldOf (d.groupId shard) = (d.setOf shard).buffers.map (·.bytes) := by
  unfold heldOf setOf
  cases d.sets.get? (d.groupId shard) with
  | none =>
    rw [Option.map_none, Option.getD_none, Option.getD_none, ShardSet.buffers, ShardSet.empty,
      ShardSet.buffers_replicate]
    rfl
  | some set => rfl

theorem isSpent_groupId (d : Decoder) (shard : Shard) : d.isSpent (d.groupId shard) = (d.setOf shard).drained := by
  unfold isSpent setOf
  cases d.sets.get? (d.groupId shard) <;> rfl

theorem group?_of_parse (hparse : Shard.parse packet = .ok shard) :
    Taking.group? ⟨d, packet, t.decoder, t.recovered⟩ = some (d.groupId shard) := by
  rw [Taking.group?, hparse]
  rfl

theorem members_of_parse (hparse : Shard.parse packet = .ok shard) :
    Taking.members ⟨d, packet, t.decoder, t.recovered⟩ = (d.setOf shard).buffers.map (·.bytes) ++ [packet] := by
  rw [Taking.members, group?_of_parse hparse, Option.map_some, Option.getD_some, heldOf_groupId]

/-- The set of a shard that is settled has the shard in it, and is drained where it is full then. -/
theorem get?_of_settles (hg : d.geometry.Valid) (hnew : d.behind (d.groupId shard) d.geometry.ring = false)
    (hs : (d.noted shard).Settles shared shard b t) :
    t.decoder.sets.get? (d.groupId shard) = some (d.filled shard b) := by
  rw [hs.decoder_eq]
  exact get?_settled (d := d.noted shard) hg hnew _

/-- A shard that is settled drains the set of its group where it fills it up. -/
theorem drains_of_settles (hd : d.Sound) (hf : d.Filed) (hparse : Shard.parse packet = .ok shard)
    (hnew : d.behind (d.groupId shard) d.geometry.ring = false) (hs : (d.noted shard).Settles shared shard b t) :
    Taking.drains ⟨d, packet, t.decoder, t.recovered⟩ = decide ((d.setOf shard).members + 1 = d.geometry.data) := by
  have hspent : d.isSpent (d.groupId shard) = false := (isSpent_groupId d shard).trans hs.undrained
  have hvacant := (filed_setOf hd.valid hf shard).vacant hs.undrained
  rw [Taking.drains, group?_of_parse hparse, Option.any_some, hspent, isSpent, get?_of_settles hd.valid hnew hs]
  unfold filled
  simp only
  split
  · rename_i hfull
    exact (decide_eq_true (le_antisymm hvacant hfull)).symm
  · rename_i hopen
    rw [decide_eq_false fun heq => hopen heq.ge]
    exact hs.undrained

/-- A shard that is settled goes into the set of its group. -/
theorem joins_of_settles (hd : d.Sound) (hf : d.Filed) (hparse : Shard.parse packet = .ok shard)
    (hplace : d.InPlace shard) (hnew : d.behind (d.groupId shard) d.geometry.ring = false)
    (hs : (d.noted shard).Settles shared shard b t) :
    Taking.Joins ⟨d, packet, t.decoder, t.recovered⟩ ((d.setOf shard).insert (d.position shard) b) := by
  obtain ⟨-, hshard, hlong⟩ := parse_eq_ok hparse
  have hbytes : b.bytes = packet := hs.bytes_eq.trans hshard
  have hfiled := filed_setOf hd.valid hf shard
  have hset := sound_setOf hd shard
  have hins : ((d.setOf shard).insert (d.position shard) b).Sound d.geometry :=
    ShardSet.sound_insert hset hs.vacant (hbytes ▸ hlong)
  have hkind : Shard.kindOf? b.bytes = some (if d.position shard < d.geometry.data then .data else .parity) := by
    rw [hbytes]
    exact kindOf?_of_inPlace hparse hplace
  have hvacant := hfiled.vacant hs.undrained
  have hdrains := drains_of_settles hd hf hparse hnew hs
  refine ⟨hins, ShardSet.kinds_insert hfiled hkind, ?_, ?_, hvacant, ?_, hdrains⟩
  · rw [members_of_parse hparse, List.length_append, List.length_map, ← hset.members_eq]
    rfl
  · intro x
    have hmem (c : Buffer) : c ∈ ((d.setOf shard).insert (d.position shard) b).buffers ↔
        c ∈ (d.setOf shard).buffers ∨ c = b := ShardSet.mem_buffers_insert hs.vacant
    rw [members_of_parse hparse, List.mem_append, List.mem_map, List.mem_singleton]
    constructor
    · rintro (⟨c, hc, rfl⟩ | rfl)
      · exact ⟨c, (hmem c).2 (.inl hc), rfl⟩
      · exact ⟨b, (hmem b).2 (.inr rfl), hbytes⟩
    · rintro ⟨c, hc, rfl⟩
      rcases (hmem c).1 hc with hc | rfl
      · exact .inl ⟨c, hc, rfl⟩
      · exact .inr hbytes
  · rw [Taking.joins, hdrains]
    by_cases hfull : (d.setOf shard).members + 1 = d.geometry.data
    · rw [decide_eq_true hfull, Bool.true_or]
    · -- the set has one more member
      have hfilled : d.filled shard b = (d.setOf shard).insert (d.position shard) b :=
        if_neg fun hle => hfull (le_antisymm hvacant hle)
      rw [decide_eq_false hfull, Bool.false_or, group?_of_parse hparse, Option.any_some, heldOf_groupId, heldOf,
        get?_of_settles hd.valid hnew hs, hfilled, Option.map_some, Option.getD_some, List.length_map,
        List.length_map, ← hins.members_eq, ← hset.members_eq]
      exact decide_eq_true rfl

/-- **The events of a packet are what it adds to the counters**, and it drains a set exactly where it completes one,
has it refused, or gives something away. -/
theorem taking_raised (hd : d.Sound) (hf : d.Filed) (h : d.decode shared packet = .ok t) :
    shared.counters.Raised (Taking.tally ⟨d, packet, t.decoder, t.recovered⟩) t.shared.counters ∧
      (Taking.drains ⟨d, packet, t.decoder, t.recovered⟩).toNat =
        (Taking.completes ⟨d, packet, t.decoder, t.recovered⟩).toNat +
        (Taking.refuses ⟨d, packet, t.decoder, t.recovered⟩).toNat + (decide (t.recovered ≠ [])).toNat := by
  rcases decode_raised hd h with ⟨hrec, hsets, hraised⟩ | ⟨shard, b, n, hparse, hplace, hnew, hs, hn, hraised⟩
  · -- the packet goes into no set
    obtain ⟨hdrains, hjoins⟩ := Taking.joins_of_sets (k := ⟨d, packet, t.decoder, t.recovered⟩) hsets
    obtain ⟨htally, hcompletes, hrefuses⟩ := Taking.tally_of_not_joins hjoins hrec
    rw [htally, hdrains, hcompletes, hrefuses, hrec]
    exact ⟨hraised, rfl⟩
  · -- the packet goes into the set of its group, which is full behind it or not
    have hk := joins_of_settles hd hf hparse hplace hnew hs
    set k : Taking := ⟨d, packet, t.decoder, t.recovered⟩ with hkdef
    set s := (d.setOf shard).insert (d.position shard) b with hsdef
    have hentering : Pi.single .parityShards k.joinsParity.toNat = entering shard := by
      rw [Taking.joinsParity, hk.joins_eq, Bool.true_and, Shard.kindOf?_eq hparse, entering]
      by_cases hkind : shard.kind = .parity <;> simp [hkind]
    rw [Taking.tally_eq, hentering]
    rcases hn with ⟨hopen, hrec, rfl⟩ | ⟨hfull, m, hm, rfl⟩
    · obtain ⟨hdrains, hcompletes, hrefuses⟩ := hk.open_ hopen
      have hnothing : k.recovered = [] := hrec
      rw [hnothing, hrec, hdrains, hcompletes, hrefuses]
      exact ⟨by simpa using hraised, rfl⟩
    · have hmembers : s.members = d.geometry.data := le_antisymm hk.le hfull
      have hdrains : k.drains = true := hk.drains_eq.trans (decide_eq_true hmembers)
      have hbodies : (bodiesIn (d.setOf shard).slots).set (d.position shard) (some (shard.bytes.drop headerSize)) =
          bodiesIn s.slots := by
        rw [hsdef, ShardSet.insert, bodiesIn, bodiesIn, List.map_set, Option.map_some, hs.bytes_eq]
      have hcompletes := hk.completes_iff hmembers
      have hrefuses := hk.refuses_iff hd.valid hmembers
      rw [hbodies] at hm
      rw [hdrains]
      cases hm with
      | complete hlost hrec hn =>
        have hnothing : k.recovered = [] := hrec
        have hwhole : k.completes = true := hcompletes.2 hlost
        have hfine : k.refuses = false := Bool.eq_false_iff.2 fun href => (hrefuses.1 href).1 hlost
        rw [hnothing, hrec, hwhole, hfine]
        exact ⟨by simpa [hn] using hraised, rfl⟩
      | restored hlost hrec hsome hn =>
        have hpart : k.completes = false := Bool.eq_false_iff.2 fun hall => hlost (hcompletes.1 hall)
        have hfine : k.refuses = false := Bool.eq_false_iff.2 fun href => hsome (hrefuses.1 href).2
        have hgiven : t.recovered ≠ [] := List.ne_nil_of_length_pos (hrec ▸ Nat.pos_of_ne_zero hlost)
        rw [hpart, hfine, decide_eq_true hgiven]
        exact ⟨by simpa [hn] using hraised, rfl⟩
      | refused hlost hrec hnone hn =>
        have hnothing : k.recovered = [] := hrec
        have hpart : k.completes = false := Bool.eq_false_iff.2 fun hall => hlost (hcompletes.1 hall)
        have hrefused : k.refuses = true := hrefuses.2 ⟨hlost, hnone⟩
        rw [hnothing, hrec, hpart, hrefused]
        exact ⟨by simpa [hn] using hraised, rfl⟩

end Decoder

/-! ### Sessions -/

namespace Session

variable {s s' : Session} {r : Request} {answer : Answer} {size : ℕ} {P : Encoder → Prop}

/-- The packet that a request has a receiver take, if there is one and it returns. -/
def taking? (s : Session) : Request → Option Taking
  | .decode name packet =>
    match s.receiver? name with
    | none => none
    | some d =>
      match d.decode s.shared packet with
      | .ok t => some ⟨d, packet, t.decoder, t.recovered⟩
      | .error _ => none
  | _ => none

/-- The packets that requests have receivers take. -/
def takings (s : Session) : List Request → List Taking
  | [] => []
  | r :: rest => (s.taking? r).toList ++ (s.next r).takings rest

/-- The sets of every receiver fit its geometry, and are filed in it. -/
theorem endures_filed (size : ℕ) :
    Endures size (Encoder.Running size) fun d => d.Sound ∧ d.Filed where
  built := (endures_sound size).built
  sealed := (endures_sound size).sealed
  made h := by
    refine ⟨(endures_sound size).made h, ?_⟩
    obtain ⟨g, -, rfl⟩ := Decoder.build_spec h
    nofun
  taken h ht := by
    obtain ⟨hsound, hsize⟩ := (endures_sound size).taken h.1 ht
    exact ⟨⟨hsound, (Decoder.decode_takes h.1 ht).filed h.1 h.2⟩, hsize⟩

/-- Only packets that receivers take change a counter. -/
theorem counters_next (h : s.Holds size (Encoder.Running size) fun d => d.Sound ∧ d.Filed)
    (hr : s.taking? r = none) : (s.next r).shared.counters = s.shared.counters := by
  rcases next_cases s r with ⟨-, heq⟩ | ⟨answer, hs⟩
  · rw [heq]
  · generalize s.next r = s' at hs
    cases hs with
    | encode hsender hdone => exact ((h.sender hsender).encode hdone).2.2
    | decode hreceiver hdone =>
      rw [taking?, hreceiver] at hr
      simp only [hdone] at hr
      cases hr
    | giveBack =>
      unfold giveBack
      split <;> rfl
    | _ => rfl

/-- A packet that is taken leaves the shared resources as its receiver does. -/
theorem taking_spec {k : Taking} (h : s.taking? r = some k) : ∃ name packet d t, r = .decode name packet ∧
    s.receiver? name = some d ∧ d.decode s.shared packet = .ok t ∧ k = ⟨d, packet, t.decoder, t.recovered⟩ ∧
      (s.next r).shared = t.shared := by
  cases r with
  | decode name packet =>
    rw [taking?] at h
    split at h
    · cases h
    · rename_i d hreceiver
      split at h
      · rename_i t hdec
        cases h
        refine ⟨name, packet, d, t, rfl, hreceiver, hdec, rfl, ?_⟩
        rw [next, perform, hreceiver]
        simp only [Session.decode, hdec]
        rfl
      · cases h
  | _ => cases h

/-- **One request.** The events of its packet are what it adds to the counters. -/
theorem raised_next (h : s.Holds size (Encoder.Running size) fun d => d.Sound ∧ d.Filed) (r : Request) :
    s.shared.counters.Raised (((s.taking? r).toList.map Taking.tally).sum) (s.next r).shared.counters ∧
      ∀ k ∈ (s.taking? r).toList,
        k.drains.toNat = k.completes.toNat + k.refuses.toNat + (decide (k.recovered ≠ [])).toNat := by
  cases htaking : s.taking? r with
  | none =>
    rw [counters_next h htaking]
    exact ⟨Counters.raised_refl _, nofun⟩
  | some k =>
    obtain ⟨name, packet, d, t, -, hreceiver, hdec, rfl, hshared⟩ := taking_spec htaking
    obtain ⟨hsound, hfiled⟩ := h.receiver hreceiver
    obtain ⟨hraised, hdrains⟩ := Decoder.taking_raised hsound hfiled hdec
    rw [hshared, Option.toList_some, List.map_singleton, List.sum_singleton]
    refine ⟨hraised, fun k hk => ?_⟩
    rw [List.mem_singleton.1 hk]
    exact hdrains

/-- **Any requests.** The events of all packets are what they add to the counters. -/
theorem raised_after (h : s.Holds size (Encoder.Running size) fun d => d.Sound ∧ d.Filed) (requests : List Request) :
    s.shared.counters.Raised ((s.takings requests).map Taking.tally).sum (s.after requests).shared.counters ∧
      ∀ k ∈ s.takings requests,
        k.drains.toNat = k.completes.toNat + k.refuses.toNat + (decide (k.recovered ≠ [])).toNat := by
  induction requests generalizing s with
  | nil => exact ⟨Counters.raised_refl _, nofun⟩
  | cons r rest ih =>
    obtain ⟨h1, h2⟩ := raised_next h r
    obtain ⟨h3, h4⟩ := ih (h.next (endures_filed size) r)
    rw [takings, List.map_append, List.sum_append]
    refine ⟨h1.trans h3, fun k hk => ?_⟩
    rcases List.mem_append.1 hk with hk | hk
    · exact h2 k hk
    · exact h4 k hk

theorem sum_tally_apply (taken : List Taking) (c : Counter) :
    (taken.map Taking.tally).sum c = (taken.map fun k => k.tally c).sum := by
  induction taken with
  | nil => rfl
  | cons k rest ih => rw [List.map_cons, List.sum_cons, List.map_cons, List.sum_cons, Pi.add_apply, ih]

theorem sum_toNat (p : Taking → Bool) (taken : List Taking) :
    (taken.map fun k => (p k).toNat).sum = taken.countP p := by
  induction taken with
  | nil => rfl
  | cons k rest ih =>
    rw [List.map_cons, List.sum_cons, List.countP_cons, ih, Nat.add_comm]
    cases p k <;> rfl

/-- **The counters tell the truth.** Take a session with new counters on any pool, and any requests of its user. The
counters are, modulo 2^64, the number of bodies given away, of parity packets that went into a set, of sets that
filled up with data only, and of sets that filled up with some parity while all their bodies are empty. The sets that
were drained are as many as the sets counted in the last two and the packets that gave something away. Opening,
closing and using senders changes no counter. -/
theorem counting (pool : BufferPool) (requests : List Request) :
    let s := (create pool).after requests
    let taken := (create pool).takings requests
    s.shared.counters.recovered = UInt64.ofNat (taken.map fun k => k.recovered.length).sum ∧
      s.shared.counters.parityShards = UInt64.ofNat (taken.countP Taking.joinsParity) ∧
      s.shared.counters.fullShardSets = UInt64.ofNat (taken.countP Taking.completes) ∧
      s.shared.counters.errors = UInt64.ofNat (taken.countP Taking.refuses) ∧
      taken.countP Taking.drains = taken.countP Taking.completes + taken.countP Taking.refuses +
        taken.countP (fun k => k.recovered ≠ []) ∧
      (∀ name plan start, (s.next (.openSender name plan start)).shared.counters = s.shared.counters) ∧
      (∀ name call, (s.next (.encode name call)).shared.counters = s.shared.counters) ∧
      (∀ name, (s.next (.close name)).shared.counters = s.shared.counters) := by
  intro s taken
  have hnew : (create pool).Holds pool.bufferSize (Encoder.Running pool.bufferSize) fun d => d.Sound ∧ d.Filed :=
    holds_new ⟨pool, .zero⟩ _ _
  have hholds : s.Holds _ _ _ := hnew.after (endures_filed _) requests
  obtain ⟨hraised, hdrains⟩ := raised_after hnew requests
  have hget : ∀ c : Counter, ¬ c.IsGauge →
      s.shared.counters.get c = UInt64.ofNat (taken.map fun k => k.tally c).sum := by
    intro c hc
    have hzero : Counters.get .zero c = 0 := by cases c <;> rfl
    have hc' := hraised c hc
    rw [sum_tally_apply, show (create pool).shared.counters = .zero from rfl, hzero, UInt64.zero_add] at hc'
    exact hc'
  refine ⟨hget .recovered id, ?_, ?_, ?_, ?_, ?_, ?_, ?_⟩
  · rw [← sum_toNat]
    exact hget .parityShards id
  · rw [← sum_toNat]
    exact hget .fullShardSets id
  · rw [← sum_toNat]
    exact hget .errors id
  · rw [← sum_toNat, ← sum_toNat, ← sum_toNat, ← sum_toNat, ← List.sum_map_add, ← List.sum_map_add]
    exact congrArg List.sum (List.map_congr_left hdrains)
  · exact fun name plan start => counters_next hholds rfl
  · exact fun name call => counters_next hholds rfl
  · exact fun name => counters_next hholds rfl

end Session

end PacketFec
