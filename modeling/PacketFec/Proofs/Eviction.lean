import Mathlib
import PacketFec.Proofs.HostileInput

/-!
# How many groups a receiver tracks

A receiver evicts the sets that lag behind its floor by more than three groups. Lags are measured around the circle
of groups, so more than half of the circle behind counts as ahead. Where the floor leaps far enough to leave a
set that far behind, the set stays; and a sequence id at or above the ceiling opens a second set for the first
group of the circle. Apart from that only the groups from the floor back to the third one behind it are tracked.

* `Decoder.Trimmed`: what holds of the sets of every receiver, whatever it has taken.
* `Decoder.Takes.trimmed`: one packet keeps it.
* `Decoder.Overleaps`, `Decoder.ordered_iff`: a packet leaves a set ahead of the floor exactly if it overleaps it.
* `Decoder.eviction_bounds`: **how many sets are tracked, and which**, over any run.
* `Decoder.eviction_exceeded`: runs that track more than the window of the floor.
-/

namespace PacketFec.Decoder

open Serial

variable {g : Geometry} {d : Decoder} {shared : Shared} {t : Decoded} {packet : Bytes} {floor group n : ℕ}
  {set : ShardSet}

/-! ### Places on the circle -/

/-- The places on the circle from a floor back to the last group that is not evicted. -/
def window (n floor : ℕ) : Finset ℤ :=
  (Finset.range (maxGroupLag + 1)).image fun i : ℕ => ((floor : ℤ) - i) % n

theorem card_window_le (n floor : ℕ) : (window n floor).card ≤ maxGroupLag + 1 := by
  have h := Finset.card_image_le (s := Finset.range (maxGroupLag + 1)) (f := fun i : ℕ => ((floor : ℤ) - i) % n)
  rwa [Finset.card_range] at h

theorem mem_window (hn : 0 < n) {id : ℕ} (hlo : 0 ≤ groupDistance floor id n)
    (hhi : groupDistance floor id n ≤ maxGroupLag) : (id : ℤ) % n ∈ window n floor := by
  have hcast : ((groupDistance floor id n).toNat : ℤ) = groupDistance floor id n := Int.toNat_of_nonneg hlo
  apply Finset.mem_image.2
  refine ⟨(groupDistance floor id n).toNat, Finset.mem_range.2 (by omega), ?_⟩
  rw [hcast]
  exact emod_groupDistance hn floor id

/-- Groups at different places have different ids, but for the two ids of the first place. -/
theorem card_ids_le {ids : Finset ℕ} {places : Finset ℤ}
    (hids : ∀ id ∈ ids, id ≤ n ∧ (id : ℤ) % n ∈ places) (h : 0 ∉ ids ∨ n ∉ ids) : ids.card ≤ places.card := by
  apply Finset.card_le_card_of_injOn (fun id : ℕ => (id : ℤ) % n) fun id hid => (hids id hid).2
  intro a ha b hb hab
  have hcast : ((a % n : ℕ) : ℤ) = (b % n : ℕ) := hab
  have hmod : a % n = b % n := Int.ofNat.inj hcast
  have hzero : ∀ c ∈ ids, n ∈ ids → c % n = 0 → c = n := by
    intro c hc hn hc0
    by_contra hne
    have hlt : c < n := lt_of_le_of_ne (hids c hc).1 hne
    rw [Nat.mod_eq_of_lt hlt] at hc0
    rcases h with h | h
    · exact h (hc0 ▸ hc)
    · exact h hn
  rcases (hids a ha).1.lt_or_eq with hlt | rfl
  · rcases (hids b hb).1.lt_or_eq with hlt' | rfl
    · rwa [Nat.mod_eq_of_lt hlt, Nat.mod_eq_of_lt hlt'] at hmod
    · exact hzero a ha hb (by rw [hmod, Nat.mod_self])
  · exact (hzero b hb ha (by rw [← hmod, Nat.mod_self])).symm

theorem card_ids_le_succ {ids : Finset ℕ} {places : Finset ℤ}
    (hids : ∀ id ∈ ids, id ≤ n ∧ (id : ℤ) % n ∈ places) : ids.card ≤ places.card + 1 := by
  have herase : (ids.erase n).card ≤ places.card :=
    card_ids_le (fun id hid => hids id (Finset.mem_of_mem_erase hid)) (.inr (Finset.notMem_erase n ids))
  have hpred := Finset.pred_card_le_card_erase (s := ids) (a := n)
  omega

/-! ### The sets behind any packets -/

/-- What holds of the sets of every receiver. No set lags too far, and the sets that lie ahead of the floor stand
at no more places than there are groups in the window behind it. -/
structure Trimmed (d : Decoder) : Prop where
  idle : d.floor = none → d.sets = []
  nodup : (d.sets.map Prod.fst).Nodup
  ids : ∀ entry ∈ d.sets, entry.1 ≤ d.geometry.ring
  lag : ∀ floor, d.floor = some floor → ∀ entry ∈ d.sets,
    groupDistance floor entry.1 d.geometry.ring ≤ maxGroupLag
  ahead : ∃ places : Finset ℤ, places.card ≤ maxGroupLag ∧ ∀ floor, d.floor = some floor →
    ∀ entry ∈ d.sets, groupDistance floor entry.1 d.geometry.ring < 0 →
      (entry.1 : ℤ) % d.geometry.ring ∈ places

theorem trimmed_of_idle (hsets : d.sets = []) : d.Trimmed where
  idle _ := hsets
  nodup := by rw [hsets]; exact List.nodup_nil
  ids := by rw [hsets]; nofun
  lag _ _ := by rw [hsets]; nofun
  ahead := ⟨∅, Nat.zero_le _, by rw [hsets]; nofun⟩

/-- The floor behind a shard that is not too old is the newer one of the old floor and the group of the shard. -/
theorem newest_cases (hnew : d.behind group d.geometry.ring = false) :
    d.floor = none ∧ d.newest group = group ∨ ∃ floor, d.floor = some floor ∧
      (groupDistance group floor d.geometry.ring = 0 ∧ d.newest group = floor ∨
        0 < groupDistance group floor d.geometry.ring ∧ d.newest group = group) := by
  unfold behind at hnew
  unfold newest
  cases hfloor : d.floor with
  | none => exact .inl ⟨rfl, rfl⟩
  | some floor =>
    rw [hfloor] at hnew
    have hle : 0 ≤ groupDistance group floor d.geometry.ring := by simpa using hnew
    refine .inr ⟨floor, rfl, ?_⟩
    rcases hle.eq_or_lt with heq | hlt
    · exact .inl ⟨heq.symm, if_neg (by omega)⟩
    · exact .inr ⟨hlt, if_pos hlt⟩

/-- The group of a shard that is settled does not lag. -/
theorem groupDistance_newest (hg : d.geometry.Valid) (hnew : d.behind group d.geometry.ring = false) :
    groupDistance (d.newest group) group d.geometry.ring = 0 := by
  have hn := Geometry.ring_pos hg
  rcases newest_cases hnew with ⟨-, heq⟩ | ⟨floor, -, ⟨hzero, heq⟩ | ⟨-, heq⟩⟩
  · rw [heq]
    exact groupDistance_eq_zero hn (by simp)
  · have hdvd := (groupDistance_spec hn group floor).1
    rw [hzero, sub_zero] at hdvd
    rw [heq]
    exact groupDistance_eq_zero hn (by rwa [← dvd_neg, neg_sub])
  · rw [heq]
    exact groupDistance_eq_zero hn (by simp)

theorem mem_settled {entry : ℕ × ShardSet} (h : entry ∈ (d.settled group set).sets) :
    (entry = (group, set) ∨ entry ∈ d.sets) ∧
      groupDistance (d.newest group) entry.1 d.geometry.ring ≤ maxGroupLag := by
  obtain ⟨hmem, hlag⟩ := List.mem_filter.1 h
  refine ⟨SetTable.mem_put hmem, ?_⟩
  simpa [lags] using hlag

/-- Where the sets stand that a leap of the floor leaves ahead: those that were ahead before and still are, and
those that the floor has overleapt. A longer leap leaves more of the former and fewer of the latter. -/
def overleapt (n group : ℕ) (leap : ℤ) : Finset ℤ :=
  (Finset.range maxGroupLag).image fun i : ℕ =>
    ((group : ℤ) - if (i : ℤ) < n / 2 - leap then -((i : ℤ) + 1) else leap + (i + 1) - n) % n

theorem card_overleapt_le (n group : ℕ) (leap : ℤ) : (overleapt n group leap).card ≤ maxGroupLag := by
  have h := Finset.card_image_le (s := Finset.range maxGroupLag) (f := fun i : ℕ =>
    ((group : ℤ) - if (i : ℤ) < n / 2 - leap then -((i : ℤ) + 1) else leap + (i + 1) - n) % n)
  rwa [Finset.card_range] at h

/-- After a leap over nearly half of the circle, what is ahead of the floor stands at one of three places. -/
theorem mem_overleapt {id : ℕ} (hn : 0 < n) (hpos : 0 < groupDistance group floor n)
    (hlag : groupDistance floor id n ≤ maxGroupLag)
    (hfar : (n : ℤ) < 2 * (groupDistance group floor n + maxGroupLag))
    (hahead : groupDistance group id n < 0) : (id : ℤ) % n ∈ overleapt n group (groupDistance group floor n) := by
  obtain ⟨-, -, hleap⟩ := groupDistance_spec hn group floor
  obtain ⟨-, hlo, -⟩ := groupDistance_spec hn floor id
  have h3 : maxGroupLag = 3 := rfl
  set leap := groupDistance group floor n
  set before := groupDistance floor id n
  have hplace := emod_groupDistance hn group id
  rw [← hplace]
  apply Finset.mem_image.2
  by_cases hwrap : (n : ℤ) < 2 * (leap + before)
  · -- it lagged, and has been overleapt
    have hdist : groupDistance group id n = leap + before - n := groupDistance_add_of_lt hn hwrap
    refine ⟨(before - 1).toNat, Finset.mem_range.2 (by omega), ?_⟩
    rw [if_neg (by omega), hdist]
    congr 2
    omega
  · -- it was ahead, and still is
    have hdist : groupDistance group id n = leap + before := groupDistance_add hn (by omega) (by omega)
    refine ⟨(-(leap + before) - 1).toNat, Finset.mem_range.2 (by omega), ?_⟩
    rw [if_pos (by omega), hdist]
    congr 2
    omega

/-- **Settling a shard keeps what holds of the sets.** -/
theorem Trimmed.settled (h : d.Trimmed) (hg : d.geometry.Valid) (hgroup : group ≤ d.geometry.ring)
    (hnew : d.behind group d.geometry.ring = false) (set : ShardSet) : (d.settled group set).Trimmed where
  idle := nofun
  nodup := (SetTable.nodup_put h.nodup).sublist (List.filter_sublist.map Prod.fst)
  ids := by
    intro entry hentry
    rcases (mem_settled hentry).1 with rfl | hold
    · exact hgroup
    · exact h.ids entry hold
  lag := by
    intro floor hfloor entry hentry
    cases hfloor
    exact (mem_settled hentry).2
  ahead := by
    have hn := Geometry.ring_pos hg
    have hzero := groupDistance_newest hg hnew
    obtain ⟨places, hcard, hplaces⟩ := h.ahead
    rcases newest_cases hnew with ⟨hnone, -⟩ | ⟨floor, hsome, ⟨-, heq⟩ | ⟨hpos, heq⟩⟩
    · -- there were no sets
      refine ⟨∅, Nat.zero_le _, ?_⟩
      intro floor hfloor entry hentry hahead
      cases hfloor
      rcases (mem_settled hentry).1 with rfl | hold
      · exact absurd hzero hahead.ne
      · rw [h.idle hnone] at hold
        cases hold
    · -- the floor stays
      refine ⟨places, hcard, ?_⟩
      intro floor' hfloor entry hentry hahead
      cases hfloor
      rcases (mem_settled hentry).1 with rfl | hold
      · exact absurd hzero hahead.ne
      · exact hplaces floor hsome entry hold (heq ▸ hahead)
    · by_cases hfar : (d.geometry.ring : ℤ) < 2 * (groupDistance group floor d.geometry.ring + maxGroupLag)
      · refine ⟨_, card_overleapt_le d.geometry.ring group (groupDistance group floor d.geometry.ring), ?_⟩
        intro floor' hfloor entry hentry hahead
        cases hfloor
        rcases (mem_settled hentry).1 with rfl | hold
        · exact absurd hzero hahead.ne
        · exact mem_overleapt hn hpos (h.lag floor hsome entry hold) hfar (heq ▸ hahead)
      · -- a short leap overleaps no set
        refine ⟨places, hcard, ?_⟩
        intro floor' hfloor entry hentry hahead
        cases hfloor
        rcases (mem_settled hentry).1 with rfl | hold
        · exact absurd hzero hahead.ne
        · have hlag := h.lag floor hsome entry hold
          obtain ⟨-, hlo, -⟩ := groupDistance_spec hn floor entry.1
          have hahead' : groupDistance group entry.1 d.geometry.ring < 0 := heq ▸ hahead
          rw [groupDistance_add hn (b := floor) (by omega) (by omega)] at hahead'
          exact hplaces floor hsome entry hold (by omega)

theorem Trimmed.noted (h : d.Trimmed) (shard : Shard) : (d.noted shard).Trimmed :=
  ⟨h.idle, h.nodup, h.ids, h.lag, h.ahead⟩

theorem groupId_le_ring (d : Decoder) (shard : Shard) : d.groupId shard ≤ d.geometry.ring := by
  have hlt := shard.seqid.toNat_lt
  exact Nat.div_le_div_right (by rw [seqidLimit]; omega)

/-- **One packet keeps what holds of the sets.** -/
theorem Takes.trimmed (hd : d.Sound) (h : d.Trimmed) (ht : d.Takes shared packet t) : t.decoder.Trimmed := by
  cases ht with
  | refused e hparse hdec hrec => rwa [hdec]
  | dropped shard hparse hplace hold hdec hrec => exact hdec ▸ h.noted shard
  | settled shard b hparse hplace hnew hset =>
    rw [hset.decoder_eq]
    exact (h.noted shard).settled hd.valid (groupId_le_ring d shard) hnew _
  | kept shard hparse hplace hdet hdec hrec => exact hdec ▸ h.noted shard
  | retuned shard g hparse hplace hdet hne hdec hrec =>
    rw [hdec]
    exact trimmed_of_idle rfl

/-- **Any packets keep it.** -/
theorem after_trimmed {packets : List Bytes} {d' : Decoder} {shared' : Shared} (hd : d.Sound) (h : d.Trimmed)
    (hafter : d.after shared packets = .ok (d', shared')) : d'.Sound ∧ d'.Trimmed := by
  induction packets generalizing d shared with
  | nil =>
    cases hafter
    exact ⟨hd, h⟩
  | cons packet rest ih =>
    rw [after] at hafter
    obtain ⟨t, hdec, hrest⟩ := Checked.bind_eq_ok.1 hafter
    have ht := decode_takes hd hdec
    exact ih (ht.sound hd) (ht.trimmed hd h) hrest

/-! ### Sets ahead of the floor -/

/-- No set is ahead of the floor. -/
def Ordered (d : Decoder) : Prop :=
  ∀ floor, d.floor = some floor → ∀ entry ∈ d.sets, 0 ≤ groupDistance floor entry.1 d.geometry.ring

/-- The group of a packet that stands at its place is more than half of the circle ahead of a set. -/
def Overleaps (d : Decoder) (packet : Bytes) : Prop :=
  ∃ shard floor entry, Shard.parse packet = .ok shard ∧ d.InPlace shard ∧ d.floor = some floor ∧
    entry ∈ d.sets ∧ (d.geometry.ring : ℤ) < 2 * (groupDistance (d.groupId shard) floor d.geometry.ring +
      groupDistance floor entry.1 d.geometry.ring)

/-- Only the set of a group that is tracked absorbs a shard. -/
theorem tracked_of_absorbs (hg : d.geometry.Valid) {shard : Shard}
    (h : (d.setOf shard).absorbs (d.position shard) = .ok true) :
    ∃ set, (d.groupId shard, set) ∈ d.sets := by
  cases hset : d.sets.get? (d.groupId shard) with
  | some set => exact ⟨set, SetTable.mem_of_get? hset⟩
  | none =>
    have hvacant : (ShardSet.empty d.geometry.total).slots[d.position shard]? = some none :=
      List.getElem?_replicate_of_lt (Nat.mod_lt _ (Geometry.total_pos hg))
    rw [setOf, hset, Option.getD_none, ShardSet.absorbs, hvacant] at h
    cases h

/-- A group in the window behind the floor is not ahead of it. -/
theorem groupDistance_nonpos {id : ℕ} (hn : 2 * maxGroupLag < n) (hlo : 0 ≤ groupDistance floor id n)
    (hhi : groupDistance floor id n ≤ maxGroupLag) : groupDistance id floor n ≤ 0 := by
  have hpos : 0 < n := by omega
  have hsum := dvd_groupDistance_add hpos id floor id
  obtain ⟨-, -, hle⟩ := groupDistance_spec hpos id floor
  rw [sub_self, zero_sub, dvd_neg] at hsum
  by_contra hahead
  have := Int.le_of_dvd (by omega) hsum
  omega

/-- A shard that is dropped overleaps no set. -/
theorem not_overleaps_of_dropped (hg : d.geometry.Valid) (h : d.Trimmed) (hord : d.Ordered) {shard : Shard}
    (hparse : Shard.parse packet = .ok shard)
    (hold : d.behind (d.groupId shard) d.geometry.ring = true ∨
      (d.setOf shard).absorbs (d.position shard) = .ok true) : ¬ d.Overleaps packet := by
  rintro ⟨shard', floor, entry, hparse', -, hfloor, hentry, hfar⟩
  obtain rfl : shard = shard' := Except.ok.inj (hparse.symm.trans hparse')
  have hlarge := Geometry.le_ring hg
  have h3 : maxGroupLag = 3 := rfl
  have hlag := h.lag floor hfloor entry hentry
  have hle : groupDistance (d.groupId shard) floor d.geometry.ring ≤ 0 := by
    rcases hold with hbehind | habs
    · rw [behind, hfloor] at hbehind
      exact (of_decide_eq_true hbehind).le
    · obtain ⟨set, hmem⟩ := tracked_of_absorbs hg habs
      exact groupDistance_nonpos (by omega) (hord floor hfloor (d.groupId shard, set) hmem)
        (h.lag floor hfloor (d.groupId shard, set) hmem)
  omega

/-- Settling a shard leaves all sets in order exactly if it overleaps none. -/
theorem ordered_settled_iff (hg : d.geometry.Valid) (h : d.Trimmed) (hord : d.Ordered)
    (hnew : d.behind group d.geometry.ring = false) (set : ShardSet) :
    (d.settled group set).Ordered ↔ ∀ floor, d.floor = some floor → ∀ entry ∈ d.sets,
      2 * (groupDistance group floor d.geometry.ring + groupDistance floor entry.1 d.geometry.ring) ≤
        (d.geometry.ring : ℤ) := by
  have hn := Geometry.ring_pos hg
  have hlarge := Geometry.le_ring hg
  have h3 : maxGroupLag = 3 := rfl
  constructor
  · intro hord' floor hfloor entry hentry
    by_contra hfar
    have hlag := h.lag floor hfloor entry hentry
    obtain ⟨-, -, hhi⟩ := groupDistance_spec hn group floor
    have hdist := groupDistance_add_of_lt (a := group) (b := floor) (c := entry.1) hn (by omega)
    -- the set that is overleapt is another one than that of the shard, so it stays
    have hne : entry.1 ≠ group := by
      intro heq
      have hself : groupDistance group entry.1 d.geometry.ring = 0 := groupDistance_eq_zero hn (by rw [heq]; simp)
      omega
    rcases newest_cases hnew with ⟨hnone, -⟩ | ⟨floor', hsome, hcases⟩
    · rw [hnone] at hfloor
      cases hfloor
    obtain rfl : floor = floor' := Option.some.inj (hfloor.symm.trans hsome)
    rcases hcases with ⟨hzero, -⟩ | ⟨-, heq⟩
    · omega
    · have hmem : entry ∈ (d.settled group set).sets := by
        apply List.mem_filter.2
        refine ⟨SetTable.mem_put_of_mem hentry hne, ?_⟩
        rw [heq]
        simp only [lags, Bool.not_eq_true', decide_eq_false_iff_not]
        omega
      have hpos := hord' (d.newest group) rfl entry hmem
      have hpos' : 0 ≤ groupDistance group entry.1 d.geometry.ring := heq ▸ hpos
      omega
  · intro hnear floor' hfloor' entry hentry
    cases hfloor'
    show 0 ≤ groupDistance (d.newest group) entry.1 d.geometry.ring
    rcases (mem_settled hentry).1 with rfl | hold
    · exact (groupDistance_newest hg hnew).ge
    rcases newest_cases hnew with ⟨hnone, -⟩ | ⟨floor, hsome, ⟨-, heq⟩ | ⟨hpos, heq⟩⟩
    · rw [h.idle hnone] at hold
      cases hold
    · rw [heq]
      exact hord floor hsome entry hold
    · have h1 := hord floor hsome entry hold
      have h2 := hnear floor hsome entry hold
      rw [heq, groupDistance_add (b := floor) hn (by omega) h2]
      omega

/-- **A packet leaves all sets in order exactly if it overleaps none.** -/
theorem Takes.ordered_iff (hd : d.Sound) (h : d.Trimmed) (hord : d.Ordered) (ht : d.Takes shared packet t) :
    t.decoder.Ordered ↔ ¬ d.Overleaps packet := by
  cases ht with
  | refused e hparse hdec hrec =>
    rw [hdec]
    refine iff_of_true hord ?_
    rintro ⟨shard, -, -, hparse', -⟩
    rw [hparse] at hparse'
    cases hparse'
  | dropped shard hparse hplace hold hdec hrec =>
    rw [hdec]
    exact iff_of_true hord (not_overleaps_of_dropped hd.valid h hord hparse hold)
  | settled shard b hparse hplace hnew hset =>
    rw [hset.decoder_eq]
    refine (ordered_settled_iff (d := d.noted shard) hd.valid (h.noted shard) hord hnew _).trans ?_
    constructor
    · rintro hnear ⟨shard', floor, entry, hparse', -, hfloor, hentry, hfar⟩
      obtain rfl : shard = shard' := Except.ok.inj (hparse.symm.trans hparse')
      exact absurd hfar (not_lt.2 (hnear floor hfloor entry hentry))
    · intro hover floor hfloor entry hentry
      by_contra hfar
      exact hover ⟨shard, floor, entry, hparse, hplace, hfloor, hentry, not_le.1 hfar⟩
  | kept shard hparse hplace hdet hdec hrec =>
    rw [hdec]
    refine iff_of_true hord ?_
    rintro ⟨shard', -, -, hparse', hplace', -⟩
    obtain rfl : shard = shard' := Except.ok.inj (hparse.symm.trans hparse')
    exact hplace hplace'
  | retuned shard g hparse hplace hdet hne hdec hrec =>
    rw [hdec]
    refine iff_of_true nofun ?_
    rintro ⟨shard', -, -, hparse', hplace', -⟩
    obtain rfl : shard = shard' := Except.ok.inj (hparse.symm.trans hparse')
    exact hplace hplace'

/-! ### Bounds -/

/-- What is tracked. A receiver without a floor tracks nothing. No set lags too far, so that the sets stand at the
places of the window, or at as many places ahead of the floor as a leap can leave there. One place has two ids. -/
structure Bounded (d : Decoder) : Prop where
  idle : d.floor = none → d.sets = []
  lag : ∀ floor, d.floor = some floor → ∀ entry ∈ d.sets,
    groupDistance floor entry.1 d.geometry.ring ≤ maxGroupLag
  tracked_le : d.tracked ≤ 2 * maxGroupLag + 2
  tracked_le_of_ordered : d.Ordered →
    d.tracked ≤ maxGroupLag + 1 ∨ d.membership 0 ≠ none ∧ d.membership d.geometry.ring ≠ none

theorem Trimmed.bounded (h : d.Trimmed) (hg : d.geometry.Valid) : d.Bounded := by
  have hn := Geometry.ring_pos hg
  set ids := (d.sets.map Prod.fst).toFinset with hids
  have hcard : d.tracked = ids.card := by
    rw [hids, List.toFinset_card_of_nodup h.nodup, List.length_map, tracked]
  have hentry : ∀ id ∈ ids, ∃ entry ∈ d.sets, entry.1 = id := by
    intro id hid
    exact List.mem_map.1 (List.mem_toFinset.1 hid)
  obtain ⟨places, hplaces, hahead⟩ := h.ahead
  refine ⟨h.idle, h.lag, ?_, ?_⟩
  · cases hfloor : d.floor with
    | none => simp [tracked, h.idle hfloor]
    | some floor =>
      have hall : ∀ id ∈ ids, id ≤ d.geometry.ring ∧
          (id : ℤ) % d.geometry.ring ∈ window d.geometry.ring floor ∪ places := by
        intro id hid
        obtain ⟨entry, hmem, rfl⟩ := hentry id hid
        refine ⟨h.ids entry hmem, Finset.mem_union.2 ?_⟩
        rcases le_or_gt 0 (groupDistance floor entry.1 d.geometry.ring) with hle | hlt
        · exact .inl (mem_window hn hle (h.lag floor hfloor entry hmem))
        · exact .inr (hahead floor hfloor entry hmem hlt)
      have h1 := card_ids_le_succ hall
      have h2 := Finset.card_union_le (window d.geometry.ring floor) places
      have h3 := card_window_le d.geometry.ring floor
      omega
  · intro hord
    cases hfloor : d.floor with
    | none => simp [tracked, h.idle hfloor]
    | some floor =>
      have hall : ∀ id ∈ ids, id ≤ d.geometry.ring ∧
          (id : ℤ) % d.geometry.ring ∈ window d.geometry.ring floor := by
        intro id hid
        obtain ⟨entry, hmem, rfl⟩ := hentry id hid
        exact ⟨h.ids entry hmem, mem_window hn (hord floor hfloor entry hmem) (h.lag floor hfloor entry hmem)⟩
      have hmember : ∀ id ∈ ids, d.membership id ≠ none := by
        intro id hid hnone
        exact SetTable.get?_ne_none (List.mem_toFinset.1 hid) (Option.map_eq_none_iff.1 hnone)
      by_cases hboth : 0 ∈ ids ∧ d.geometry.ring ∈ ids
      · exact .inr ⟨hmember _ hboth.1, hmember _ hboth.2⟩
      · have h1 := card_ids_le hall (not_and_or.1 hboth)
        exact .inl (hcard ▸ h1.trans (card_window_le _ _))

/-- **How many sets a receiver tracks, and which**, behind any packets. It tracks at most eight. All of them are in
the window that reaches from the floor back over three groups, behind every packet of a run, exactly if no packet
overleaps a set; and then there are at most four, if the first group of the circle is not tracked twice. -/
theorem eviction_bounds {d₀ : Decoder} {packets : List Bytes} {shared' : Shared} (hnew : create g = .ok d₀)
    (hafter : d₀.after shared packets = .ok (d, shared')) :
    d.Bounded ∧ ((∀ past e s, past <+: packets → d₀.after shared past = .ok (e, s) → e.Ordered) ↔
      ∀ past packet e s, past ++ [packet] <+: packets → d₀.after shared past = .ok (e, s) →
        ¬ e.Overleaps packet) := by
  obtain ⟨hg, rfl⟩ := create_eq_ok_iff.1 hnew
  have hd₀ : Sound ⟨g, [], none, .empty, 0⟩ := ⟨hg, nofun⟩
  have htrim₀ : Trimmed ⟨g, [], none, .empty, 0⟩ := trimmed_of_idle rfl
  obtain ⟨hd, htrim⟩ := after_trimmed hd₀ htrim₀ hafter
  refine ⟨htrim.bounded hd.valid, ?_, ?_⟩
  · intro hord past packet e s hpast he
    obtain ⟨⟨e', s'⟩, hnext⟩ := after_of_prefix hpast hafter
    obtain ⟨e₁, s₁, t, he₁, hdec, heq⟩ := after_concat_eq_ok.1 hnext
    cases he₁.symm.trans he
    cases heq
    obtain ⟨hsound, htrim'⟩ := after_trimmed hd₀ htrim₀ he
    have hord' := hord past e s ((List.prefix_append past [packet]).trans hpast) he
    exact ((decode_takes hsound hdec).ordered_iff hsound htrim' hord').1 (hord _ _ _ hpast hnext)
  · intro hover past
    induction past using List.reverseRecOn with
    | nil =>
      intro e s _ he
      cases he
      exact nofun
    | append_singleton past packet ih =>
      intro e s hpast he
      obtain ⟨e₁, s₁, t, he₁, hdec, heq⟩ := after_concat_eq_ok.1 he
      cases heq
      obtain ⟨hsound, htrim'⟩ := after_trimmed hd₀ htrim₀ he₁
      have hord' := ih e₁ s₁ ((List.prefix_append past [packet]).trans hpast) he₁
      exact ((decode_takes hsound hdec).ordered_iff hsound htrim' hord').2 (hover past packet e₁ s₁ hpast he₁)

set_option maxRecDepth 20000 in
/-- A receiver that takes a shard of each of three groups, the last one half of the circle ahead. -/
theorem eviction_bounds_of_long_leap : ∃ d₀ d shared',
    create ⟨2, 1⟩ = .ok d₀ ∧ d₀.after ⟨.create 16 8, .zero⟩
      [[0, 0, 0, 0, 241, 0, 7], [3, 0, 0, 0, 241, 0, 7], [1, 0, 0, 128, 241, 0, 7]] = .ok (d, shared') ∧
      d.Bounded := by
  obtain ⟨d₀, d, shared', hnew, hafter⟩ : ∃ d₀ d shared', create ⟨2, 1⟩ = .ok d₀ ∧
      d₀.after ⟨.create 16 8, .zero⟩ [[0, 0, 0, 0, 241, 0, 7], [3, 0, 0, 0, 241, 0, 7],
        [1, 0, 0, 128, 241, 0, 7]] = .ok (d, shared') := ⟨_, _, _, rfl, rfl⟩
  exact ⟨d₀, d, shared', hnew, hafter, (eviction_bounds hnew hafter).1⟩

set_option maxRecDepth 20000 in
/-- Sets outside the window. A leap over half of the circle leaves a set ahead of the floor; and the ids below and
at the ceiling open five sets where the window has four places. -/
theorem eviction_exceeded :
    (∃ d₀ d shared', create ⟨2, 1⟩ = .ok d₀ ∧ d₀.after ⟨.create 16 8, .zero⟩
      [[0, 0, 0, 0, 241, 0, 7], [3, 0, 0, 0, 241, 0, 7], [1, 0, 0, 128, 241, 0, 7]] = .ok (d, shared') ∧
      d.floor = some 715827883 ∧ d.membership 0 = some 1 ∧ groupDistance 715827883 0 d.geometry.ring < 0) ∧
    ∃ d₀ d shared', create ⟨2, 1⟩ = .ok d₀ ∧ d₀.after ⟨.create 16 8, .zero⟩
      [[249, 255, 255, 255, 241, 0, 7], [252, 255, 255, 255, 241, 0, 7], [255, 255, 255, 255, 241, 0, 7],
        [0, 0, 0, 0, 241, 0, 7], [3, 0, 0, 0, 241, 0, 7]] = .ok (d, shared') ∧ d.tracked = 5 :=
  ⟨⟨_, _, _, rfl, rfl, by decide +kernel, by decide +kernel, by decide +kernel⟩,
    _, _, _, rfl, rfl, by decide +kernel⟩

end PacketFec.Decoder
