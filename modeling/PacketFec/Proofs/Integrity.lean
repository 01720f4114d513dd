import Mathlib
import PacketFec.Proofs.Counting
import PacketFec.Proofs.Fitting

/-!
# What a receiver holds is in order

A set is kept in four places: under the id of its group, in its slots, in the count of its members and in the flag that
it has been drained. Taking a packet changes some of them and leaves by many ways. On all of them the four agree, and
whatever stands in a slot is a shard that belongs there. So a group is drained by the shard that brings its members to
`D`, by no other one, and never twice as long as it is tracked.

* `Decoder.Step`, `Decoder.Reached`: the receivers that packets lead to, whatever pool and counters they meet.
* `ShardSet.Intact`: what holds of a set under the id of its group.
* `Takes.placed`, `Reached.intact`: **every packet keeps it**, so it holds of every receiver.
* `Decoder.FillsUp`, `Reached.isSpent_iff`: **a packet drains a group exactly if it is the last member wanted.**
* `Reached.isSpent_of_tracked`: a group that is drained stays so as long as it is tracked, and yields nothing.
* `Decoder.integrity`: all of this, over every run.
-/

namespace PacketFec

/-! ### Tables -/

namespace SetTable

variable {t : SetTable} {k k' : ℕ} {s s' : ShardSet}

theorem get?_put_of_ne (h : k' ≠ k) : (t.put k s).get? k' = t.get? k' := by
  induction t with
  | nil => rw [put, get?_cons, if_neg h]
  | cons entry rest ih =>
    obtain ⟨g, old⟩ := entry
    unfold put
    split
    · rename_i hg
      rw [get?_cons, get?_cons, if_neg (hg ▸ h), if_neg (hg ▸ h)]
    · rw [get?_cons, get?_cons, ih]

/-- What a filter leaves under a key stood there before. -/
theorem get?_of_filter (p : ℕ → Bool) (h : SetTable.get? (t.filter fun entry => p entry.1) k = some s) :
    t.get? k = some s := by
  have hmem := List.mem_filter.1 (mem_of_get? h)
  rwa [get?_filter p hmem.2] at h

/-- A group has one set. -/
theorem eq_of_mem (hnodup : (t.map Prod.fst).Nodup) (h : (k, s) ∈ t) (h' : (k, s') ∈ t) : s = s' :=
  (Prod.mk.inj (List.inj_on_of_nodup_map hnodup h h' rfl)).2

end SetTable

/-! ### Sets -/

namespace ShardSet

variable {s : ShardSet} {g : Geometry} {group i : ℕ} {b : Buffer}

/-- A buffer belongs into a slot of a group: it holds a shard of the group, which has that place in it, and the kind of
the place. -/
def Belongs (g : Geometry) (group i : ℕ) (b : Buffer) : Prop :=
  ∃ shard, Shard.parse b.bytes = .ok shard ∧ g.groupOf shard.seqid = .ok group ∧
    shard.seqid.toNat % g.total = i ∧ g.kindAt shard.seqid = .ok shard.kind

/-- What holds of a set under the id of its group. -/
structure Intact (s : ShardSet) (g : Geometry) (group : ℕ) : Prop where
  /-- There is a slot for every shard of a group. -/
  length_eq : s.slots.length = g.total
  /-- The members are counted. -/
  members_eq : s.members = s.slots.countP Option.isSome
  /-- The set is drained and empty, or has members, but too few to rebuild the group. -/
  state : s.drained = true ∧ s.members = 0 ∨ s.drained = false ∧ 1 ≤ s.members ∧ s.members < g.data
  /-- Each member is in the slot where it belongs. -/
  belongs : ∀ (i : ℕ) (b : Buffer), s.slots[i]? = some (some b) → Belongs g group i b

/-- The members of a set belong into their slots, and only a drained set has none. -/
structure Placed (s : ShardSet) (g : Geometry) (group : ℕ) : Prop where
  drained_iff : s.drained = true ↔ s.members = 0
  belongs : ∀ (i : ℕ) (b : Buffer), s.slots[i]? = some (some b) → Belongs g group i b

theorem placed_drain (s : ShardSet) (g : Geometry) (group : ℕ) : s.drain.Placed g group where
  drained_iff := ⟨fun _ => rfl, fun _ => rfl⟩
  belongs i b h := by
    rw [drain, List.getElem?_replicate] at h
    split at h <;> simp at h

/-- A shard put into the slot where it belongs. -/
theorem belongs_insert (h : ∀ (j : ℕ) (c : Buffer), s.slots[j]? = some (some c) → Belongs g group j c)
    (hb : Belongs g group i b) (j : ℕ) (c : Buffer) (hc : (s.insert i b).slots[j]? = some (some c)) :
    Belongs g group j c := by
  rw [insert, List.getElem?_set] at hc
  split at hc
  · rename_i hij
    subst hij
    split at hc
    · cases hc
      exact hb
    · cases hc
  · exact h j c hc

theorem length_buffers (s : ShardSet) : s.buffers.length = s.slots.countP Option.isSome := by
  rw [buffers, List.length_filterMap_eq_countP]
  rfl

theorem Placed.intact (h : s.Placed g group) (hs : s.Sound g) (hf : s.Filed g) : s.Intact g group where
  length_eq := hs.length_eq
  members_eq := hs.members_eq.trans s.length_buffers
  state := by
    cases hdrained : s.drained with
    | true => exact .inl ⟨rfl, h.drained_iff.1 hdrained⟩
    | false =>
      refine .inr ⟨rfl, Nat.one_le_iff_ne_zero.2 fun hzero => ?_, hf.vacant hdrained⟩
      rw [h.drained_iff.2 hzero] at hdrained
      cases hdrained
  belongs := h.belongs

end ShardSet

namespace Decoder

variable {d e : Decoder} {shared : Shared} {t : Decoded} {packet : Bytes} {shard : Shard} {b : Buffer} {group : ℕ}

/-! ### The receivers that packets lead to -/

/-- A packet leads from one receiver to the other, with some pool and some counters. -/
def Step (d e : Decoder) : Prop := ∃ shared packet t, d.decode shared packet = .ok t ∧ t.decoder = e

/-- A new receiver, or one that packets have led to. Others may have used the pool and the counters in between. -/
def Reached (d : Decoder) : Prop := ∃ g d₀, create g = .ok d₀ ∧ Relation.ReflTransGen Step d₀ d

theorem step_of_decode (h : d.decode shared packet = .ok t) : d.Step t.decoder := ⟨shared, packet, t, h, rfl⟩

theorem Reached.step (h : d.Reached) (hstep : d.Step e) : e.Reached := by
  obtain ⟨g, d₀, hcreate, hpath⟩ := h
  exact ⟨g, d₀, hcreate, hpath.tail hstep⟩

theorem Reached.sound (h : d.Reached) : d.Sound := by
  obtain ⟨g, d₀, hcreate, hpath⟩ := h
  induction hpath with
  | refl =>
    obtain ⟨hg, rfl⟩ := create_eq_ok_iff.1 hcreate
    exact ⟨hg, nofun⟩
  | tail _ hstep ih =>
    obtain ⟨shared, packet, t, hdec, rfl⟩ := hstep
    exact (decode_takes ih hdec).sound ih

/-- What a new receiver has, and every packet keeps that a sound one takes, every receiver has. -/
theorem Reached.induct {P : Decoder → Prop} (hnew : ∀ g : Geometry, g.Valid → P ⟨g, [], none, .empty, 0⟩)
    (hkeep : ∀ d shared packet t, d.Sound → P d → d.Takes shared packet t → P t.decoder) (h : d.Reached) : P d := by
  obtain ⟨g, d₀, hcreate, hpath⟩ := h
  induction hpath with
  | refl =>
    obtain ⟨hg, rfl⟩ := create_eq_ok_iff.1 hcreate
    exact hnew g hg
  | tail hpath hstep ih =>
    obtain ⟨shared, packet, t, hdec, rfl⟩ := hstep
    have hsound := Reached.sound ⟨g, d₀, hcreate, hpath⟩
    exact hkeep _ shared packet t hsound ih (decode_takes hsound hdec)

theorem Reached.trimmed (h : d.Reached) : d.Trimmed :=
  h.induct (fun _ _ => trimmed_of_idle rfl) fun _ _ _ _ hd htrimmed ht => ht.trimmed hd htrimmed

theorem Reached.filed (h : d.Reached) : d.Filed :=
  h.induct (fun _ _ => nofun) fun _ _ _ _ hd hfiled ht => ht.filed hd hfiled

/-! ### Every member stands where it belongs -/

/-- The members of every set belong into their slots. -/
def Placed (d : Decoder) : Prop := ∀ entry ∈ d.sets, entry.2.Placed d.geometry entry.1

/-- A shard at its place belongs into the slot that it is put into. -/
theorem belongs_of_inPlace (hg : d.geometry.Valid) (hparse : Shard.parse packet = .ok shard)
    (hplace : d.InPlace shard) (hb : b.bytes = packet) :
    ShardSet.Belongs d.geometry (d.groupId shard) (d.position shard) b :=
  ⟨shard, hb ▸ hparse, Geometry.groupOf_eq hg _, rfl, (inPlace_iff hg shard).1 hplace⟩

theorem belongs_setOf (h : d.Placed) (shard : Shard) (i : ℕ) (c : Buffer)
    (hc : (d.setOf shard).slots[i]? = some (some c)) : ShardSet.Belongs d.geometry (d.groupId shard) i c := by
  unfold setOf at hc
  cases hset : d.sets.get? (d.groupId shard) with
  | none =>
    rw [hset, Option.getD_none, ShardSet.empty, List.getElem?_replicate] at hc
    split at hc <;> simp at hc
  | some set =>
    rw [hset, Option.getD_some] at hc
    exact (h _ (SetTable.mem_of_get? hset)).belongs i c hc

/-- **A packet keeps every member where it belongs.** -/
theorem Takes.placed (hd : d.Sound) (h : d.Placed) (ht : d.Takes shared packet t) : t.decoder.Placed := by
  cases ht with
  | refused e hparse hdec hrec => rwa [hdec]
  | dropped shard hparse hplace hold hdec hrec => exact hdec ▸ h
  | settled shard b hparse hplace hnew hset =>
    rw [hset.decoder_eq]
    intro entry hentry
    rcases (mem_settled hentry).1 with rfl | hold
    · have hbytes : b.bytes = packet := hset.bytes_eq.trans (parse_eq_ok hparse).2.1
      have hbelongs := ShardSet.belongs_insert (belongs_setOf h shard)
        (belongs_of_inPlace hd.valid hparse hplace hbytes)
      unfold filled
      simp only
      split
      · exact ShardSet.placed_drain _ _ _
      · -- the set has a member now, and was not drained
        refine ⟨⟨fun hdrained => ?_, fun hzero => absurd hzero (Nat.succ_ne_zero _)⟩, hbelongs⟩
        have hundrained := hset.undrained
        rw [show ((d.noted shard).setOf shard).drained = true from hdrained] at hundrained
        cases hundrained
    · exact h entry hold
  | kept shard hparse hplace hdet hdec hrec => exact hdec ▸ h
  | retuned shard g hparse hplace hdet hne hdec hrec => exact hdec ▸ nofun

theorem Reached.placed (h : d.Reached) : d.Placed :=
  h.induct (fun _ _ => nofun) fun _ _ _ _ hd hplaced ht => ht.placed hd hplaced

/-- **Every set of every receiver is intact.** -/
theorem Reached.intact (h : d.Reached) {entry : ℕ × ShardSet} (hentry : entry ∈ d.sets) :
    entry.2.Intact d.geometry entry.1 :=
  (h.placed entry hentry).intact (h.sound.sets entry hentry) (h.filed entry hentry)

/-- A group that is tracked has fewer members than rebuild it. -/
theorem Reached.membership_lt (h : d.Reached) {n : ℕ} (hn : d.membership group = some n) : n < d.geometry.data := by
  obtain ⟨set, hset, rfl⟩ := Option.map_eq_some_iff.1 hn
  rcases (h.intact (SetTable.mem_of_get? hset)).state with ⟨-, hzero⟩ | ⟨-, -, hlt⟩
  · rw [hzero]
    exact h.sound.valid.data_pos
  · exact hlt

/-- A buffer in a slot of the set of a group. -/
def Stores (d : Decoder) (group i : ℕ) (b : Buffer) : Prop :=
  ∃ set, (group, set) ∈ d.sets ∧ set.slots[i]? = some (some b)

/-- **No sequence id is stored twice**: it names the group and the slot. -/
theorem Reached.stores_unique (h : d.Reached) {group' i i' : ℕ} {b' : Buffer} {shard shard' : Shard}
    (hs : d.Stores group i b) (hs' : d.Stores group' i' b') (hparse : Shard.parse b.bytes = .ok shard)
    (hparse' : Shard.parse b'.bytes = .ok shard') (hseqid : shard.seqid = shard'.seqid) :
    group = group' ∧ i = i' ∧ b = b' := by
  obtain ⟨set, hmem, hslot⟩ := hs
  obtain ⟨set', hmem', hslot'⟩ := hs'
  obtain ⟨x, hx, hgroup, hi, -⟩ := (h.placed _ hmem).belongs i b hslot
  obtain ⟨x', hx', hgroup', hi', -⟩ := (h.placed _ hmem').belongs i' b' hslot'
  obtain rfl : x = shard := Except.ok.inj (hx.symm.trans hparse)
  obtain rfl : x' = shard' := Except.ok.inj (hx'.symm.trans hparse')
  -- the sequence id says the group and the slot, and a group has one set
  rw [hseqid] at hgroup hi
  obtain rfl : group = group' := Except.ok.inj (hgroup.symm.trans hgroup')
  obtain rfl : i = i' := hi.symm.trans hi'
  obtain rfl : set = set' := SetTable.eq_of_mem h.trimmed.nodup hmem hmem'
  refine ⟨rfl, rfl, ?_⟩
  rw [hslot] at hslot'
  exact Option.some.inj (Option.some.inj hslot')

/-! ### Drained groups -/

/-- A packet that is put into the set of its group: it is a shard at its place, its group is not behind the floor, and
its slot is vacant in a set that is not drained. -/
structure Joins (d : Decoder) (packet : Bytes) (shard : Shard) : Prop where
  parse_eq : Shard.parse packet = .ok shard
  inPlace : d.InPlace shard
  new : d.behind (d.groupId shard) d.geometry.ring = false
  vacant : (d.setOf shard).absorbs (d.position shard) = .ok false

/-- The members of a group, none where it is not tracked. -/
def membersOf (d : Decoder) (group : ℕ) : ℕ := (d.membership group).getD 0

/-- The packet is the last member that a group wants. -/
def FillsUp (d : Decoder) (packet : Bytes) (group : ℕ) : Prop :=
  ∃ shard, d.Joins packet shard ∧ d.groupId shard = group ∧ d.membersOf group + 1 = d.geometry.data

theorem membersOf_groupId (d : Decoder) (shard : Shard) : d.membersOf (d.groupId shard) = (d.setOf shard).members := by
  unfold membersOf membership setOf
  cases d.sets.get? (d.groupId shard) <;> rfl

/-- A packet that is put into a set, or one that leaves the sets as they were, or without any. -/
theorem Takes.joins_or (ht : d.Takes shared packet t) :
    (∃ shard b, d.Joins packet shard ∧ (d.noted shard).Settles shared shard b t) ∨
      t.recovered = [] ∧ (t.decoder.sets = d.sets ∨ t.decoder.sets = []) := by
  cases ht with
  | refused e hparse hdec hrec => exact .inr ⟨hrec, .inl (by rw [hdec])⟩
  | dropped shard hparse hplace hold hdec hrec => exact .inr ⟨hrec, .inl (by rw [hdec]; rfl)⟩
  | settled shard b hparse hplace hnew hset =>
    exact .inl ⟨shard, b, ⟨hparse, hplace, hnew, absorbs_of_settles (d := d.noted shard) hset⟩, hset⟩
  | kept shard hparse hplace hdet hdec hrec => exact .inr ⟨hrec, .inl (by rw [hdec]; rfl)⟩
  | retuned shard g hparse hplace hdet hne hdec hrec => exact .inr ⟨hrec, .inr (by rw [hdec]; rfl)⟩

/-- A packet that can be put into a set is put there. -/
theorem Takes.settles_of_joins (ht : d.Takes shared packet t) (hj : d.Joins packet shard) :
    ∃ b, (d.noted shard).Settles shared shard b t := by
  rcases ht.of_parse hj.parse_eq with ⟨-, ⟨-, -, hold⟩ | ⟨-, hset⟩⟩ | ⟨hmis, -⟩
  · rcases hold with hbehind | habs
    · rw [hj.new] at hbehind
      cases hbehind
    · rw [hj.vacant] at habs
      cases habs
  · exact hset
  · exact absurd hj.inPlace hmis

/-- The set of a group that another packet's shard joins stays, or is evicted. -/
theorem get?_of_settles_of_ne (hs : (d.noted shard).Settles shared shard b t) (hne : group ≠ d.groupId shard)
    {set : ShardSet} (h : t.decoder.sets.get? group = some set) : d.sets.get? group = some set := by
  rw [hs.decoder_eq] at h
  have hput := SetTable.get?_of_filter (fun id => !lags ((d.noted shard).newest ((d.noted shard).groupId shard))
    (d.noted shard).geometry.ring id) h
  exact (SetTable.get?_put_of_ne hne).symm.trans hput

theorem filled_of_le (h : d.geometry.data ≤ (d.setOf shard).members + 1) :
    d.filled shard b = ((d.setOf shard).insert (d.position shard) b).drain := if_pos h

theorem filled_of_lt (h : (d.setOf shard).members + 1 < d.geometry.data) :
    d.filled shard b = (d.setOf shard).insert (d.position shard) b := if_neg (Nat.not_le.2 h)

/-- **What a packet that joins its group does to it.** It is one member more, or the last one, which drains the
group. -/
theorem Joins.membership (hd : d.Reached) (hj : d.Joins packet shard) (hdec : d.decode shared packet = .ok t) :
    t.decoder.membership (d.groupId shard) =
        some (if d.membersOf (d.groupId shard) + 1 = d.geometry.data then 0 else d.membersOf (d.groupId shard) + 1) ∧
      t.decoder.isSpent (d.groupId shard) =
        decide (d.membersOf (d.groupId shard) + 1 = d.geometry.data) := by
  obtain ⟨b, hs⟩ := (decode_takes hd.sound hdec).settles_of_joins hj
  have hget := get?_of_settles hd.sound.valid hj.new hs
  have hvacant : (d.setOf shard).members < d.geometry.data :=
    (filed_setOf hd.sound.valid hd.filed shard).vacant hs.undrained
  -- the set of the group is now the one with the shard in it, drained if that has filled it
  rw [Decoder.membership, isSpent, hget, membersOf_groupId, Option.map_some, Option.map_some, Option.getD_some]
  by_cases hlast : (d.setOf shard).members + 1 = d.geometry.data
  · rw [if_pos hlast, decide_eq_true hlast, filled_of_le hlast.ge]
    exact ⟨rfl, rfl⟩
  · rw [if_neg hlast, decide_eq_false hlast, filled_of_lt (by omega)]
    exact ⟨rfl, hs.undrained⟩

/-- A drained group takes no member. -/
theorem Joins.not_isSpent (hj : d.Joins packet shard) : d.isSpent (d.groupId shard) = false := by
  rw [isSpent_groupId]
  by_contra hspent
  have habs := hj.vacant
  rw [ShardSet.absorbs, if_pos (by simpa using hspent)] at habs
  cases habs

/-- **A packet drains a group exactly if it is the last member that the group wants.** -/
theorem Reached.isSpent_iff (hd : d.Reached) (hdec : d.decode shared packet = .ok t)
    (hopen : d.isSpent group = false) : t.decoder.isSpent group = true ↔ d.FillsUp packet group := by
  constructor
  · intro hspent
    rcases (decode_takes hd.sound hdec).joins_or with ⟨shard, b, hj, hs⟩ | ⟨-, hsets | hsets⟩
    · by_cases hgroup : d.groupId shard = group
      · subst hgroup
        rw [(hj.membership hd hdec).2] at hspent
        exact ⟨shard, hj, rfl, of_decide_eq_true hspent⟩
      · -- another group's packet drains no set of this one
        rw [isSpent] at hspent
        cases hget : t.decoder.sets.get? group with
        | none =>
          rw [hget] at hspent
          cases hspent
        | some set =>
          rw [hget] at hspent
          rw [isSpent, get?_of_settles_of_ne hs (Ne.symm hgroup) hget] at hopen
          exact absurd hspent (by simpa using hopen)
    · rw [isSpent, hsets, ← isSpent, hopen] at hspent
      cases hspent
    · rw [isSpent, hsets] at hspent
      cases hspent
  · rintro ⟨shard, hj, rfl, hlast⟩
    rw [(hj.membership hd hdec).2]
    exact decide_eq_true hlast

/-- Only a packet that fills up its group is answered with rebuilt bodies. -/
theorem Reached.fillsUp_of_recovered (hd : d.Reached) (hdec : d.decode shared packet = .ok t)
    (hrec : t.recovered ≠ []) : ∃ group, d.FillsUp packet group := by
  rcases (decode_takes hd.sound hdec).joins_or with ⟨shard, b, hj, hs⟩ | ⟨hnone, -⟩
  · refine ⟨_, shard, hj, rfl, ?_⟩
    have hvacant := (filed_setOf hd.sound.valid hd.filed shard).vacant hs.undrained
    have hbytes := hs.recovered_eq
    rw [membersOf_groupId]
    by_contra hopen
    have hlt : ¬ (d.noted shard).geometry.data ≤ ((d.noted shard).setOf shard).members + 1 :=
      fun hle => hopen (le_antisymm hvacant hle)
    rw [if_neg hlt, List.map_eq_nil_iff] at hbytes
    exact hrec hbytes
  · exact absurd hnone hrec

/-- One packet, while a drained group is tracked. -/
theorem Reached.isSpent_step (hd : d.Reached) (hspent : d.isSpent group = true)
    (hdec : d.decode shared packet = .ok t) (htracked : t.decoder.membership group ≠ none) :
    t.decoder.isSpent group = true := by
  obtain ⟨set, hset⟩ : ∃ set, t.decoder.sets.get? group = some set := by
    rw [membership, ne_eq, Option.map_eq_none_iff] at htracked
    exact Option.ne_none_iff_exists'.1 htracked
  rcases (decode_takes hd.sound hdec).joins_or with ⟨shard, b, hj, hs⟩ | ⟨-, hsets | hsets⟩
  · by_cases hgroup : d.groupId shard = group
    · rw [← hgroup, hj.not_isSpent] at hspent
      cases hspent
    · rw [isSpent, get?_of_settles_of_ne hs (Ne.symm hgroup) hset] at hspent
      rwa [isSpent, hset]
  · rwa [isSpent, hsets]
  · rw [hsets] at hset
    cases hset

/-- Packets lead from one receiver to the other, and all the way a group is tracked. -/
def StaysTracked (group : ℕ) : Decoder → Decoder → Prop :=
  Relation.ReflTransGen fun d e => d.Step e ∧ e.membership group ≠ none

/-- **A drained group stays drained as long as it is tracked.** -/
theorem Reached.isSpent_of_tracked (hd : d.Reached) (hspent : d.isSpent group = true)
    (hpath : StaysTracked group d e) : e.Reached ∧ e.isSpent group = true := by
  induction hpath with
  | refl => exact ⟨hd, hspent⟩
  | tail _ hlast ih =>
    obtain ⟨⟨shared, packet, t, hdec, rfl⟩, htracked⟩ := hlast
    exact ⟨ih.1.step (step_of_decode hdec), ih.1.isSpent_step ih.2 hdec htracked⟩

/-- A drained group has no member. -/
theorem Reached.membership_of_isSpent (hd : d.Reached) (hspent : d.isSpent group = true) :
    d.membership group = some 0 := by
  rw [isSpent] at hspent
  cases hget : d.sets.get? group with
  | none =>
    rw [hget] at hspent
    cases hspent
  | some set =>
    rw [hget] at hspent
    rw [membership, hget, Option.map_some,
      (hd.placed _ (SetTable.mem_of_get? hget)).drained_iff.1 (by simpa using hspent)]

/-- A drained group yields nothing. -/
theorem Reached.recovered_of_isSpent (hd : d.Reached) (hparse : Shard.parse packet = .ok shard)
    (hspent : d.isSpent (d.groupId shard) = true) (hdec : d.decode shared packet = .ok t) : t.recovered = [] := by
  by_contra hrec
  obtain ⟨group, shard', hj, -, -⟩ := hd.fillsUp_of_recovered hdec hrec
  obtain rfl : shard = shard' := Except.ok.inj (hparse.symm.trans hj.parse_eq)
  rw [hj.not_isSpent] at hspent
  cases hspent

/-! ### Every run -/

/-- What holds of the sets of every receiver. -/
structure Consistent (d : Decoder) : Prop where
  /-- A group has one set. -/
  nodup : (d.sets.map Prod.fst).Nodup
  intact : ∀ entry ∈ d.sets, entry.2.Intact d.geometry entry.1
  membership_lt : ∀ group n, d.membership group = some n → n < d.geometry.data
  /-- No sequence id is stored twice. -/
  unique : ∀ group i b shard group' i' b' shard', d.Stores group i b → d.Stores group' i' b' →
    Shard.parse b.bytes = .ok shard → Shard.parse b'.bytes = .ok shard' → shard.seqid = shard'.seqid →
    group = group' ∧ i = i' ∧ b = b'

/-- How groups fill up, whatever the next packet is. -/
structure DrainsOnce (d : Decoder) : Prop where
  /-- A packet that joins its group is one member more, or the last one wanted. -/
  joins : ∀ shared packet t shard, d.decode shared packet = .ok t → d.Joins packet shard →
    t.decoder.membership (d.groupId shard) =
      some (if d.membersOf (d.groupId shard) + 1 = d.geometry.data then 0 else d.membersOf (d.groupId shard) + 1)
  /-- The last one drains the group, and nothing else drains a group. -/
  drains : ∀ shared packet t group, d.decode shared packet = .ok t → d.isSpent group = false →
    (t.decoder.isSpent group = true ↔ d.FillsUp packet group)
  /-- Behind that, the group is drained as long as it is tracked, and its shards yield nothing. -/
  spent : ∀ group e, d.isSpent group = true → StaysTracked group d e →
    e.isSpent group = true ∧ e.membership group = some 0 ∧
      ∀ shared packet t shard, Shard.parse packet = .ok shard → e.geometry.groupOf shard.seqid = .ok group →
        e.decode shared packet = .ok t → t.recovered = []

/-- **What a receiver holds is in order**, whatever packets it has taken, and whatever pool and counters it has met:
its sets are intact, and every group is drained once, by the last member that it wants. -/
theorem integrity (h : d.Reached) : d.Consistent ∧ d.DrainsOnce := by
  constructor
  · exact ⟨h.trimmed.nodup, fun _ hentry => h.intact hentry, fun _ _ hn => h.membership_lt hn,
      fun _ _ _ _ _ _ _ _ hs hs' hparse hparse' heq => h.stores_unique hs hs' hparse hparse' heq⟩
  · refine ⟨fun shared packet t shard hdec hj => (hj.membership h hdec).1,
      fun shared packet t group hdec hopen => h.isSpent_iff hdec hopen, ?_⟩
    intro group e hspent hpath
    obtain ⟨he, hspent'⟩ := h.isSpent_of_tracked hspent hpath
    refine ⟨hspent', he.membership_of_isSpent hspent', ?_⟩
    intro shared packet t shard hparse hgroup hdec
    rw [Geometry.groupOf_eq he.sound.valid] at hgroup
    obtain rfl : e.groupId shard = group := Except.ok.inj hgroup
    exact he.recovered_of_isSpent hparse hspent' hdec

/-- A run of one receiver that keeps its pool and counters to itself. -/
theorem Reached.after (h : d.Reached) {packets : List Bytes} {shared' : Shared}
    (hafter : d.after shared packets = .ok (e, shared')) : e.Reached := by
  induction packets generalizing d shared with
  | nil =>
    cases hafter
    exact h
  | cons packet rest ih =>
    rw [Decoder.after] at hafter
    obtain ⟨t, hdec, hrest⟩ := Checked.bind_eq_ok.1 hafter
    exact ih (h.step (step_of_decode hdec)) hrest

set_option maxRecDepth 20000 in
/-- A receiver that has rebuilt its first group, has taken the straggler of that group, and has a member of the
second one. -/
theorem integrity_of_straggler : ∃ d₀ d shared', create ⟨2, 1⟩ = .ok d₀ ∧ d₀.after ⟨.create 16 8, .zero⟩
      [[0, 0, 0, 0, 241, 0, 7], [2, 0, 0, 0, 242, 0, 9], [3, 0, 0, 0, 241, 0, 8], [1, 0, 0, 0, 241, 0, 7]] =
        .ok (d, shared') ∧
    d.Reached ∧ d.isSpent 0 = true ∧ d.membership 1 = some 1 ∧ d.Consistent ∧ d.DrainsOnce := by
  obtain ⟨d₀, d, shared', hnew, hafter, hspent, hopen⟩ : ∃ d₀ d shared', create ⟨2, 1⟩ = .ok d₀ ∧
      d₀.after ⟨.create 16 8, .zero⟩ [[0, 0, 0, 0, 241, 0, 7], [2, 0, 0, 0, 242, 0, 9], [3, 0, 0, 0, 241, 0, 8],
        [1, 0, 0, 0, 241, 0, 7]] = .ok (d, shared') ∧ d.isSpent 0 = true ∧ d.membership 1 = some 1 :=
    ⟨_, _, _, rfl, rfl, by decide +kernel, by decide +kernel⟩
  have hreached : d.Reached := Reached.after ⟨_, _, hnew, .refl⟩ hafter
  exact ⟨d₀, d, shared', hnew, hafter, hreached, hspent, hopen, integrity hreached⟩

end Decoder

end PacketFec
