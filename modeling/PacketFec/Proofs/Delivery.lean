import Mathlib
import PacketFec.Proofs.HostileInput
import PacketFec.Proofs.Wire

/-!
# Delivery over any channel

A channel loses, repeats and reorders the shards of a stream as it likes. The receiver follows the newest group
that it has heard of. It keeps what it heard of that group, and rebuilds the missing data shards when it has
heard `D` places. Groups are told apart by their ids as long as the stream spans less than half of the ring.

* `heard`, `Completes`, `lost`: the places heard of a group, the delivery that completes a group, and the data
  shards that are missing then.
* `Knows`: what a set holds of a group.
* `Decoder.Holding`: **the state of a receiver behind some deliveries.**
* `Decoder.decode_holding`: one delivery.
-/

namespace PacketFec

/-! ### What has been heard of a group -/

/-- The places of a group that some deliveries brought. -/
def heard (history : List WireShard) (k : ℕ) : Finset ℕ :=
  ((history.filter (·.group = k)).map (·.place)).toFinset

theorem mem_heard {history : List WireShard} {k p : ℕ} :
    p ∈ heard history k ↔ ∃ v ∈ history, v.group = k ∧ v.place = p := by
  simp [heard, and_assoc]

theorem heard_concat (history : List WireShard) (w : WireShard) (k : ℕ) :
    heard (history ++ [w]) k =
      if w.group = k then insert w.place (heard history k) else heard history k := by
  ext p
  rw [mem_heard]
  split
  · rename_i hk
    rw [Finset.mem_insert, mem_heard]
    constructor
    · rintro ⟨v, hv, h1, h2⟩
      rcases List.mem_append.1 hv with hv | hv
      · exact .inr ⟨v, hv, h1, h2⟩
      · rw [List.mem_singleton] at hv
        exact .inl (by rw [← h2, hv])
    · rintro (rfl | ⟨v, hv, h1, h2⟩)
      · exact ⟨w, by simp, hk, rfl⟩
      · exact ⟨v, List.mem_append_left _ hv, h1, h2⟩
  · rename_i hk
    rw [mem_heard]
    constructor
    · rintro ⟨v, hv, h1, h2⟩
      rcases List.mem_append.1 hv with hv | hv
      · exact ⟨v, hv, h1, h2⟩
      · rw [List.mem_singleton] at hv
        exact absurd (hv ▸ h1) hk
    · rintro ⟨v, hv, h1, h2⟩
      exact ⟨v, List.mem_append_left _ hv, h1, h2⟩

/-- A delivery that brings the last of `D` places of its group, before any shard of a later group. -/
def Completes (g : Geometry) (history : List WireShard) (w : WireShard) : Prop :=
  (∀ v ∈ history, v.group ≤ w.group) ∧ w.place ∉ heard history w.group ∧
    (heard history w.group).card + 1 = g.data

instance (g : Geometry) (history : List WireShard) (w : WireShard) : Decidable (Completes g history w) := by
  unfold Completes; infer_instance

/-- The places of the data shards that are missing when a delivery completes its group, in order. -/
def lost (g : Geometry) (history : List WireShard) (w : WireShard) : List ℕ :=
  (List.range g.data).filter (· ∉ heard (history ++ [w]) w.group)

/-- The newest group of some deliveries. -/
structure Newest (history : List WireShard) (m : ℕ) : Prop where
  occurs : ∃ v ∈ history, v.group = m
  le : ∀ v ∈ history, v.group ≤ m

theorem Newest.eq {history : List WireShard} {m n : ℕ} (hm : Newest history m) (hn : Newest history n) :
    m = n := by
  obtain ⟨v, hv, rfl⟩ := hm.occurs
  obtain ⟨u, hu, rfl⟩ := hn.occurs
  exact le_antisymm (hn.le v hv) (hm.le u hu)

theorem newest_concat {history : List WireShard} {m : ℕ} (hm : Newest history m) (w : WireShard) :
    Newest (history ++ [w]) (max m w.group) := by
  refine ⟨?_, fun v hv => ?_⟩
  · obtain ⟨v, hv, rfl⟩ := hm.occurs
    rcases le_total v.group w.group with h | h
    · exact ⟨w, by simp, (max_eq_right h).symm⟩
    · exact ⟨v, List.mem_append_left _ hv, (max_eq_left h).symm⟩
  · rcases List.mem_append.1 hv with hv | hv
    · exact le_trans (hm.le v hv) (le_max_left _ _)
    · rw [List.mem_singleton.1 hv]
      exact le_max_right _ _

theorem newest_of_le {history : List WireShard} {w : WireShard} (h : ∀ v ∈ history, v.group ≤ w.group) :
    Newest (history ++ [w]) w.group := by
  refine ⟨⟨w, by simp, rfl⟩, fun v hv => ?_⟩
  rcases List.mem_append.1 hv with hv | hv
  · exact h v hv
  · rw [List.mem_singleton.1 hv]

theorem exists_newest {history : List WireShard} (hne : history ≠ []) : ∃ m, Newest history m := by
  induction history using List.reverseRecOn with
  | nil => exact absurd rfl hne
  | append_singleton rest w ih =>
    by_cases hrest : rest = []
    · subst hrest
      exact ⟨w.group, newest_of_le nofun⟩
    · obtain ⟨m, hm⟩ := ih hrest
      exact ⟨_, newest_concat hm w⟩

/-! ### Ids of groups -/

namespace Geometry

/-- The id of a group of a stream that starts at `base`. -/
def groupAt (g : Geometry) (base k : ℕ) : ℕ := (base / g.total + k) % g.ring

variable {g : Geometry} {i j : ℕ}

theorem groupDistance_groupAt (hg : g.Valid) (base : ℕ) (hi : 2 * i < g.ring) (hj : 2 * j < g.ring) :
    Serial.groupDistance (g.groupAt base j) (g.groupAt base i) g.ring = (j : ℤ) - i :=
  groupDistance_ring hg _ i j (by omega) (by omega)

theorem groupAt_inj (hg : g.Valid) (base : ℕ) (hi : 2 * i < g.ring) (hj : 2 * j < g.ring)
    (h : g.groupAt base i = g.groupAt base j) : i = j := by
  have h1 := groupDistance_groupAt hg base hi hj
  have h2 := groupDistance_groupAt hg base hi hi
  rw [h] at h1 h2
  omega

end Geometry

/-! ### What a set knows of its group -/

section

open Decoder

variable {s : ShardSet} {g : Geometry} {bodies : List Bytes} {places : Finset ℕ}

/-- What a set holds of a group of which some places have been heard: the bodies at these places, until there
are `D` of them. -/
structure Knows (s : ShardSet) (g : Geometry) (bodies : List Bytes) (places : Finset ℕ) : Prop where
  drained_iff : s.drained = true ↔ g.data ≤ places.card
  slots : places.card < g.data → ∀ p, (bodiesIn s.slots).getD p none =
    if p ∈ places then some (shardBody g bodies p) else none
  members : places.card < g.data → s.members = places.card

theorem bodiesIn_getD (slots : List (Option Buffer)) (p : ℕ) :
    (bodiesIn slots).getD p none = (slots.getD p none).map (·.bytes.drop headerSize) := by
  rw [bodiesIn, List.getD_eq_getElem?_getD, List.getElem?_map, List.getD_eq_getElem?_getD]
  cases slots[p]? <;> rfl

theorem knows_empty (hg : g.Valid) (bodies : List Bytes) : Knows (.empty g.total) g bodies ∅ where
  drained_iff := by
    have := hg.data_pos
    rw [Finset.card_empty]
    exact ⟨nofun, fun h => by omega⟩
  slots := by
    intro _ p
    rw [bodiesIn_getD, ShardSet.empty, List.getD_eq_getElem?_getD, List.getElem?_replicate,
      if_neg (Finset.notMem_empty p)]
    split <;> rfl
  members := fun _ => rfl

/-- A slot is empty exactly where its place has not been heard. -/
theorem Knows.slot_iff (h : Knows s g bodies places) (hs : s.slots.length = g.total)
    (hlt : places.card < g.data) {p : ℕ} (hp : p < g.total) : s.slots[p]? = some none ↔ p ∉ places := by
  have hslot := h.slots hlt p
  rw [bodiesIn_getD, List.getD_eq_getElem _ _ (by omega)] at hslot
  rw [List.getElem?_eq_getElem (by omega), Option.some_inj]
  constructor
  · intro hnone hmem
    rw [hnone, if_pos hmem] at hslot
    cases hslot
  · intro hmem
    rw [if_neg hmem] at hslot
    exact Option.map_eq_none_iff.1 hslot

/-- A place that is absorbed adds nothing. -/
theorem Knows.of_absorbs (h : Knows s g bodies places) (hg : g.Valid) (hs : s.slots.length = g.total) {p : ℕ}
    (hp : p < g.total) (habs : s.absorbs p = .ok true) :
    places.Nonempty ∧ ¬ (p ∉ places ∧ places.card + 1 = g.data) ∧ Knows s g bodies (insert p places) := by
  have hd := hg.data_pos
  by_cases hlt : places.card < g.data
  · have hdrained : ¬ s.drained = true := fun hd => by
      have := h.drained_iff.1 hd
      omega
    have hmem : p ∈ places := by
      by_contra hmem
      rw [ShardSet.absorbs, if_neg hdrained, (h.slot_iff hs hlt hp).2 hmem] at habs
      cases habs
    rw [Finset.insert_eq_of_mem hmem]
    exact ⟨⟨p, hmem⟩, fun hc => hc.1 hmem, h⟩
  · have hcard := Finset.card_le_card (Finset.subset_insert p places)
    refine ⟨Finset.card_pos.1 (by omega), fun hc => by omega,
      ⟨h.drained_iff.trans ⟨fun _ => by omega, fun _ => by omega⟩, ?_, ?_⟩⟩
    · intro hlt'
      omega
    · intro hlt'
      omega

/-- A new place is one more among the places heard, and its body is in its slot. -/
theorem Knows.inserted (h : Knows s g bodies places) (hs : s.slots.length = g.total) {p : ℕ} (hp : p < g.total)
    (hlt : places.card < g.data) (hmem : p ∉ places) {b : Buffer}
    (hb : b.bytes.drop headerSize = shardBody g bodies p) :
    (∀ q, (bodiesIn (s.insert p b).slots).getD q none =
      if q ∈ insert p places then some (shardBody g bodies q) else none) ∧
    (s.insert p b).members = (insert p places).card := by
  refine ⟨fun q => ?_, ?_⟩
  · have hq := h.slots hlt q
    rw [bodiesIn_getD] at hq ⊢
    rw [ShardSet.insert, List.getD_eq_getElem?_getD]
    by_cases hqp : p = q
    · subst hqp
      rw [List.getElem?_set_self (by omega), if_pos (Finset.mem_insert_self _ _), Option.getD_some,
        Option.map_some, hb]
    · rw [List.getElem?_set_ne hqp, ← List.getD_eq_getElem?_getD, hq]
      simp only [Finset.mem_insert, Ne.symm hqp, false_or]
  · rw [Finset.card_insert_of_notMem hmem, ShardSet.insert, h.members hlt]

/-- A set that a new place fills up is drained. -/
theorem Knows.filled (h : Knows s g bodies places) (hs : s.slots.length = g.total) {p : ℕ} (hp : p < g.total)
    (hlt : places.card < g.data) (hmem : p ∉ places) {b : Buffer}
    (hb : b.bytes.drop headerSize = shardBody g bodies p) :
    Knows (if g.data ≤ (s.insert p b).members then (s.insert p b).drain else s.insert p b) g bodies
      (insert p places) := by
  obtain ⟨h1, h2⟩ := h.inserted hs hp hlt hmem hb
  split
  · rename_i hfull
    rw [h2] at hfull
    exact ⟨⟨fun _ => hfull, fun _ => rfl⟩, fun hlt' => by omega, fun hlt' => by omega⟩
  · rename_i hfull
    rw [h2] at hfull
    have hdrained : ¬ s.drained = true := fun hd => by
      have := h.drained_iff.1 hd
      omega
    exact ⟨⟨fun hd => absurd hd hdrained, fun hle => by omega⟩, fun _ => h1, fun _ => h2⟩

/-- What a set rebuilds that has heard enough places of a group. -/
theorem rebuilt_eq (hg : g.Valid) (hs : s.Sound g) (hlen : bodies.length = g.data) (hpos : 0 < width bodies)
    (hslots : ∀ p, (bodiesIn s.slots).getD p none =
      if p ∈ places then some (shardBody g bodies p) else none) (hen : g.data ≤ s.members) :
    rebuilt g s.slots =
      ((List.range g.data).filter (· ∉ places)).map fun p => (evened bodies).getD p [] := by
  rw [rebuilt, restore_levelled hg hlen hpos]
  · congr 1
    apply List.filter_congr
    intro p _
    rw [hslots p]
    by_cases hp : p ∈ places <;> simp [hp]
  · rw [bodiesIn, List.length_map, hs.length_eq]
  · intro p b hb
    rw [hslots p] at hb
    split at hb
    · exact (Option.some.inj hb).symm
    · cases hb
  · rw [bodiesIn, filterMap_map_map, List.length_map]
    exact hs.members_eq ▸ hen

end

/-! ### The receiver -/

/-- Deliveries of one stream that spans less than half of the ring. -/
structure Stream (g : Geometry) (base : ℕ) (bodies : ℕ → List Bytes) (history : List WireShard) : Prop where
  valid : g.Valid
  aligned : g.total ∣ base
  length_le : ∀ k, (bodies k).length ≤ g.data
  width_pos : ∀ k, (bodies k).length = g.data → 0 < width (bodies k)
  genuine : ∀ v ∈ history, Genuine g base bodies v
  near : ∀ v ∈ history, 2 * v.group < g.ring

namespace Decoder

variable {g : Geometry} {base : ℕ} {bodies : ℕ → List Bytes} {history : List WireShard} {w : WireShard}
  {d : Decoder}

/-- **The state of a receiver behind some deliveries.** The floor is the newest group heard of, the set of that
group knows what has been heard of it, and every other set belongs to another group heard of. -/
structure Holding (d : Decoder) (g : Geometry) (base : ℕ) (bodies : ℕ → List Bytes)
    (history : List WireShard) : Prop where
  sound : d.Sound
  geometry_eq : d.geometry = g
  floor_none : history = [] → d.floor = none
  floor_eq : ∀ m, Newest history m → d.floor = some (g.groupAt base m)
  tracked : ∀ m, Newest history m →
    ∃ set, d.sets.get? (g.groupAt base m) = some set ∧ Knows set g (bodies m) (heard history m)
  keys : ∀ entry ∈ d.sets, ∃ v ∈ history, entry.1 = g.groupAt base v.group

/-- A receiver reads off the header where a shard of its stream belongs. -/
theorem groupId_shard (hg : g.Valid) (hbase : g.total ∣ base) (hplace : w.place < g.total) (hgeo : d.geometry = g) :
    d.groupId (w.shard g base) = g.groupAt base w.group := by
  rw [groupId, hgeo, WireShard.shard, Shard.seqid, Geometry.seqidAt_div hg hbase, Geometry.place_div hplace]
  rfl

theorem position_shard (hg : g.Valid) (hbase : g.total ∣ base) (hplace : w.place < g.total)
    (hgeo : d.geometry = g) : d.position (w.shard g base) = w.place := by
  rw [position, hgeo, WireShard.shard, Shard.seqid, Geometry.seqidAt_mod hg hbase, Geometry.place_mod hplace]

section

variable (hold : d.Holding g base bodies history) (hs : Stream g base bodies (history ++ [w]))

include hold hs

theorem behind_iff :
    d.behind (g.groupAt base w.group) g.ring = true ↔ ∃ v ∈ history, w.group < v.group := by
  have hw := hs.near w (by simp)
  unfold behind
  by_cases hne : history = []
  · rw [hold.floor_none hne, hne]
    simp
  · obtain ⟨m, hm⟩ := exists_newest hne
    obtain ⟨v, hv, rfl⟩ := hm.occurs
    rw [hold.floor_eq _ hm]
    simp only [Geometry.groupDistance_groupAt hs.valid base (hs.near v (List.mem_append_left _ hv)) hw,
      decide_eq_true_eq]
    constructor
    · intro hlt
      exact ⟨v, hv, by omega⟩
    · rintro ⟨u, hu, hlt⟩
      have := hm.le u hu
      omega

/-- A shard of no older group makes its group the newest one. -/
theorem newest_eq (hle : ∀ v ∈ history, v.group ≤ w.group) :
    d.newest (g.groupAt base w.group) = g.groupAt base w.group := by
  have hw := hs.near w (by simp)
  unfold newest
  by_cases hne : history = []
  · rw [hold.floor_none hne]
  · obtain ⟨m, hm⟩ := exists_newest hne
    obtain ⟨v, hv, rfl⟩ := hm.occurs
    rw [hold.floor_eq _ hm, hold.geometry_eq]
    simp only [Geometry.groupDistance_groupAt hs.valid base (hs.near v (List.mem_append_left _ hv)) hw]
    split
    · rfl
    · have := hle v hv
      rw [show v.group = w.group by omega]

/-- What the set knows that a shard of no older group is sorted into. -/
theorem knows_get? (hle : ∀ v ∈ history, v.group ≤ w.group) :
    Knows ((d.sets.get? (g.groupAt base w.group)).getD (.empty g.total)) g (bodies w.group)
      (heard history w.group) := by
  -- either the group is the newest one so far, or nothing has been heard of it
  by_cases hmem : ∃ v ∈ history, v.group = w.group
  · obtain ⟨set, hget, hknows⟩ := hold.tracked w.group ⟨hmem, hle⟩
    rw [hget]
    exact hknows
  · have hheard : heard history w.group = ∅ := by
      rw [Finset.eq_empty_iff_forall_notMem]
      intro p hp
      obtain ⟨v, hv, hgroup, -⟩ := mem_heard.1 hp
      exact hmem ⟨v, hv, hgroup⟩
    have hnone : d.sets.get? (g.groupAt base w.group) = none := by
      apply SetTable.get?_eq_none_of_forall
      intro entry hentry heq
      obtain ⟨v, hv, hkey⟩ := hold.keys entry hentry
      refine hmem ⟨v, hv, ?_⟩
      exact Geometry.groupAt_inj hs.valid base (hs.near v (List.mem_append_left _ hv)) (hs.near w (by simp))
        (hkey.symm.trans heq)
    rw [hnone, hheard]
    exact knows_empty hs.valid _

omit hs in
/-- A shard of an older group changes nothing. -/
theorem holding_of_behind (hlt : ∃ v ∈ history, w.group < v.group) :
    d.Holding g base bodies (history ++ [w]) := by
  obtain ⟨u, hu, hlt⟩ := hlt
  obtain ⟨m, hm⟩ := exists_newest (List.ne_nil_of_mem hu)
  have hum := hm.le u hu
  have hnew : ∀ n, Newest (history ++ [w]) n → n = m := by
    intro n hn
    rw [hn.eq (newest_concat hm w)]
    exact max_eq_left (by omega)
  refine ⟨hold.sound, hold.geometry_eq, fun h => ?_, fun n hn => ?_, fun n hn => ?_, fun entry hentry => ?_⟩
  · simp at h
  · rw [hnew n hn]
    exact hold.floor_eq m hm
  · rw [hnew n hn, heard_concat, if_neg (by omega)]
    exact hold.tracked m hm
  · obtain ⟨v, hv, hkey⟩ := hold.keys entry hentry
    exact ⟨v, List.mem_append_left _ hv, hkey⟩

omit hs in
/-- A shard that the set of the newest group absorbs changes nothing. -/
theorem holding_of_absorbed (hle : ∀ v ∈ history, v.group ≤ w.group) (hmem : ∃ v ∈ history, v.group = w.group)
    (hknows : Knows ((d.sets.get? (g.groupAt base w.group)).getD (.empty g.total)) g (bodies w.group)
      (insert w.place (heard history w.group))) : d.Holding g base bodies (history ++ [w]) := by
  have hm : Newest history w.group := ⟨hmem, hle⟩
  have hnew : ∀ n, Newest (history ++ [w]) n → n = w.group := fun n hn => hn.eq (newest_of_le hle)
  refine ⟨hold.sound, hold.geometry_eq, fun h => ?_, fun n hn => ?_, fun n hn => ?_, fun entry hentry => ?_⟩
  · simp at h
  · rw [hnew n hn]
    exact hold.floor_eq _ hm
  · obtain ⟨set, hget, -⟩ := hold.tracked _ hm
    rw [hget] at hknows
    rw [hnew n hn, heard_concat, if_pos rfl]
    exact ⟨set, hget, hknows⟩
  · obtain ⟨v, hv, hkey⟩ := hold.keys entry hentry
    exact ⟨v, List.mem_append_left _ hv, hkey⟩

/-- A shard that is settled makes its group the newest one. -/
theorem holding_of_settled (hle : ∀ v ∈ history, v.group ≤ w.group) {set : ShardSet}
    (hset : set.Sound g) (hknows : Knows set g (bodies w.group) (insert w.place (heard history w.group))) :
    (d.settled (g.groupAt base w.group) set).Holding g base bodies (history ++ [w]) := by
  have hw := hs.near w (by simp)
  have hnew : ∀ n, Newest (history ++ [w]) n → n = w.group := fun n hn => hn.eq (newest_of_le hle)
  have hfloor := newest_eq hold hs hle
  refine ⟨hold.sound.settled _ (hold.geometry_eq.symm ▸ hset), hold.geometry_eq, fun h => ?_, fun n hn => ?_,
    fun n hn => ?_, fun entry hentry => ?_⟩
  · simp at h
  · rw [hnew n hn, settled, hfloor]
  · rw [hnew n hn, heard_concat, if_pos rfl]
    refine ⟨set, ?_, hknows⟩
    -- the newest group does not lag behind itself
    have hlag : lags (g.groupAt base w.group) g.ring (g.groupAt base w.group) = false := by
      rw [lags, Geometry.groupDistance_groupAt hs.valid base hw hw, maxGroupLag]
      simp
    rw [settled, hfloor, hold.geometry_eq]
    rw [SetTable.get?_filter (fun k => !lags (g.groupAt base w.group) g.ring k) (by simp [hlag])]
    exact SetTable.get?_put_self _ _ _
  · rcases SetTable.mem_put (List.mem_of_mem_filter hentry) with rfl | hold'
    · exact ⟨w, by simp, rfl⟩
    · obtain ⟨v, hv, hkey⟩ := hold.keys entry hold'
      exact ⟨v, List.mem_append_left _ hv, hkey⟩

/-- The set that a delivery is sorted into, once the receiver has read off the header where it belongs. -/
theorem setOf_shard (hplace : w.place < g.total) : d.setOf (w.shard g base) =
    (d.sets.get? (g.groupAt base w.group)).getD (.empty g.total) := by
  rw [setOf, groupId_shard hs.valid hs.aligned hplace hold.geometry_eq, hold.geometry_eq]

/-- A delivery that is dropped adds nothing to what the receiver knows. -/
theorem holding_of_dropped (hplace : w.place < g.total)
    (hdrop : d.behind (d.groupId (w.shard g base)) d.geometry.ring = true ∨
      (d.setOf (w.shard g base)).absorbs (d.position (w.shard g base)) = .ok true) :
    d.Holding g base bodies (history ++ [w]) ∧ ¬ Completes g history w := by
  rw [groupId_shard hs.valid hs.aligned hplace hold.geometry_eq, hold.geometry_eq, behind_iff hold hs,
    position_shard hs.valid hs.aligned hplace hold.geometry_eq] at hdrop
  by_cases hlater : ∃ v ∈ history, w.group < v.group
  · refine ⟨holding_of_behind hold hlater, fun hc => ?_⟩
    obtain ⟨v, hv, hlt⟩ := hlater
    have := hc.1 v hv
    omega
  · have hle : ∀ v ∈ history, v.group ≤ w.group := by
      intro v hv
      by_contra hlt
      exact hlater ⟨v, hv, by omega⟩
    have hsound := sound_setOf hold.sound (w.shard g base)
    rw [hold.geometry_eq] at hsound
    have hknows := knows_get? hold hs hle
    rw [← setOf_shard hold hs hplace] at hknows
    obtain ⟨⟨p, hp⟩, hnc, hknows'⟩ :=
      hknows.of_absorbs hs.valid hsound.length_eq hplace (hdrop.resolve_left hlater)
    obtain ⟨v, hv, hvg, -⟩ := mem_heard.1 hp
    rw [setOf_shard hold hs hplace] at hknows'
    exact ⟨holding_of_absorbed hold hle ⟨v, hv, hvg⟩ hknows', fun hc => hnc hc.2⟩

omit hold in
/-- A group of which `D` places have been heard is complete. -/
theorem length_of_completes (hc : Completes g history w) : (bodies w.group).length = g.data := by
  by_contra hne
  have hle := hs.length_le w.group
  have hknown : ∀ v ∈ history ++ [w], v.group = w.group → v.place < (bodies w.group).length := by
    intro v hv hgroup
    have := (hs.genuine v hv).known
    rw [hgroup] at this
    exact this.resolve_right hne
  -- the places heard of an incomplete group are those of its bodies, which are too few
  have hsub : insert w.place (heard history w.group) ⊆ Finset.range (bodies w.group).length := by
    intro p hp
    rw [Finset.mem_range]
    rcases Finset.mem_insert.1 hp with rfl | hp
    · exact hknown w (by simp) rfl
    · obtain ⟨v, hv, hgroup, rfl⟩ := mem_heard.1 hp
      exact hknown v (List.mem_append_left _ hv) hgroup
  have hcard := Finset.card_le_card hsub
  rw [Finset.card_insert_of_notMem hc.2.1, hc.2.2, Finset.card_range] at hcard
  omega

/-- A delivery that is settled brings a new place of a group that is not complete. It fills the set up exactly
where it completes the group. -/
theorem settles_new (hle : ∀ v ∈ history, v.group ≤ w.group) {shared : Shared} {b : Buffer} {t : Decoded}
    (hset : d.Settles shared (w.shard g base) b t) :
    (heard history w.group).card < g.data ∧ w.place ∉ heard history w.group ∧
      b.bytes.drop headerSize = shardBody g (bodies w.group) w.place ∧
      (g.data ≤ (d.setOf (w.shard g base)).members + 1 ↔ Completes g history w) ∧
      ∀ p, (bodiesIn ((d.setOf (w.shard g base)).insert w.place b).slots).getD p none =
        if p ∈ heard (history ++ [w]) w.group then some (shardBody g (bodies w.group) p) else none := by
  have hgen := hs.genuine w (by simp)
  have hplace := hgen.place_lt
  have hpos := position_shard hs.valid hs.aligned hplace hold.geometry_eq
  have hsound := sound_setOf hold.sound (w.shard g base)
  have hundrained := hset.undrained
  have hvacant := hset.vacant
  have hknows := knows_get? hold hs hle
  rw [← setOf_shard hold hs hplace] at hknows
  rw [hold.geometry_eq] at hsound
  rw [hpos] at hvacant
  have hlt : (heard history w.group).card < g.data := by
    by_contra hge
    rw [hknows.drained_iff.2 (by omega)] at hundrained
    cases hundrained
  have hnew := (hknows.slot_iff hsound.length_eq hlt hplace).1 hvacant
  have hbody : b.bytes.drop headerSize = shardBody g (bodies w.group) w.place := by
    rw [hset.bytes_eq]
    exact hgen.drop_header
  refine ⟨hlt, hnew, hbody, ?_, ?_⟩
  · rw [hknows.members hlt]
    exact ⟨fun h => ⟨hle, hnew, by omega⟩, fun hc => hc.2.2.symm.le⟩
  · rw [heard_concat, if_pos rfl]
    exact (hknows.inserted hsound.length_eq hplace hlt hnew hbody).1

/-- A delivery that is settled is known from then on, and gives back what is missing where it completes its
group. -/
theorem holding_of_settles (hle : ∀ v ∈ history, v.group ≤ w.group) {shared : Shared} {b : Buffer} {t : Decoded}
    (hset : d.Settles shared (w.shard g base) b t) :
    t.decoder.Holding g base bodies (history ++ [w]) ∧ t.recovered.map (·.bytes) =
      if Completes g history w then (lost g history w).map fun p => (evened (bodies w.group)).getD p [] else [] := by
  have hg := hs.valid
  have hgeo := hold.geometry_eq
  have hgen := hs.genuine w (by simp)
  have hplace := hgen.place_lt
  have hgroup := groupId_shard hg hs.aligned hplace hgeo
  have hpos := position_shard hg hs.aligned hplace hgeo
  obtain ⟨hlt, hnew, hbody, hcompletes, hslots⟩ := settles_new hold hs hle hset
  obtain ⟨-, hvacant, hbytes, hdecoder, hrecovered, -⟩ := hset
  set shard := w.shard g base with hshard
  have hsound := sound_setOf hold.sound shard
  rw [hgeo] at hsound hrecovered
  have hknows := knows_get? hold hs hle
  rw [← setOf_shard hold hs hplace] at hknows
  rw [hpos] at hvacant hrecovered
  have hlong : headerSize ≤ b.bytes.length := by
    rw [hbytes]
    exact (parse_eq_ok hgen.parse_eq).2.2
  refine ⟨?_, ?_⟩
  · -- the set takes the shard, and is drained where that fills it up
    have hfill := hknows.filled hsound.length_eq hplace hlt hnew hbody
    have hfillSound := sound_filled hold.sound (hpos.symm ▸ hvacant) hlong
    rw [filled, hpos, hgeo] at hfillSound
    rw [hdecoder, hgroup, filled, hpos, hgeo]
    exact holding_of_settled hold hs hle hfillSound hfill
  · rw [hrecovered]
    simp only [hcompletes]
    split
    · rename_i hc
      have hfull := length_of_completes hs hc
      rw [rebuilt_eq hg (ShardSet.sound_insert hsound hvacant hlong) hfull (hs.width_pos _ hfull) hslots
        (hcompletes.2 hc), lost]
    · rfl

omit hs in
/-- Sampling a shard for the log changes nothing that the receiver holds. -/
theorem holding_noted (shard : Shard) : (d.noted shard).Holding g base bodies history :=
  ⟨hold.sound.noted _, hold.geometry_eq, hold.floor_none, hold.floor_eq, hold.tracked, hold.keys⟩

/-- The kind of a genuine shard is that of its place, so the receiver never doubts its geometry. -/
theorem fits_shard :
    d.position (w.shard g base) < d.geometry.data ↔ (w.shard g base).kind = .data := by
  rw [position_shard hs.valid hs.aligned (hs.genuine w (by simp)).place_lt hold.geometry_eq, hold.geometry_eq,
    WireShard.shard, Shard.kind]
  split <;> simp [*]

/-- A delivery that does not lag behind belongs to no older group. -/
theorem le_of_not_behind (hnot : d.behind (d.groupId (w.shard g base)) d.geometry.ring = false) :
    ∀ v ∈ history, v.group ≤ w.group := by
  intro v hv
  by_contra hlt
  rw [groupId_shard hs.valid hs.aligned (hs.genuine w (by simp)).place_lt hold.geometry_eq, hold.geometry_eq,
    (behind_iff hold hs).2 ⟨v, hv, by omega⟩] at hnot
  cases hnot

/-- **One delivery.** It is taken without a fault. It gives back what is missing of its group where it
completes the group, and nothing otherwise. -/
theorem decode_holding (shared : Shared) :
    ∃ t, d.decode shared w.bytes = .ok t ∧ t.decoder.Holding g base bodies (history ++ [w]) ∧
      t.recovered.map (·.bytes) = if Completes g history w
        then (lost g history w).map fun p => (evened (bodies w.group)).getD p [] else [] := by
  have hgen := hs.genuine w (by simp)
  have hold' := holding_noted hold (w.shard g base)
  have hlong : headerSize ≤ (w.shard g base).bytes.length := (parse_eq_ok hgen.parse_eq).2.2
  rw [decode_eq hold.sound.valid hgen.parse_eq, if_pos (fits_shard hold hs)]
  rcases receive_cases hold'.sound shared hlong with ⟨hrec, hdrop⟩ | ⟨hnot, b, t, hrec, hset⟩
  · obtain ⟨h1, h2⟩ := holding_of_dropped hold' hs hgen.place_lt hdrop
    exact ⟨_, hrec, h1, by rw [if_neg h2]; rfl⟩
  · exact ⟨t, hrec, holding_of_settles hold' hs (le_of_not_behind hold' hs hnot) hset⟩

end

end Decoder

end PacketFec
