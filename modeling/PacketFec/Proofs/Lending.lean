import Mathlib
import PacketFec.Encoder
import PacketFec.Proofs.Exchange
import PacketFec.Proofs.Receiving

/-!
# The buffers of senders and receivers

A sender takes the buffers of its scratch slots when it is made, writes to them, and hands them back when it is closed.
A receiver takes a buffer for each shard that it puts into a set. When it drains a set it takes one for each body that
it has to rebuild, hands the shards back and gives the rebuilt bodies away; when it evicts a set or starts over it hands
back what it held.

* `Encoder.create_exchanges`, `Encoder.encode_exchanges`, `Encoder.close_exchanges`: the accounts of a sender.
* `Decoder.reconstruct_exchanges`: the account of a drained set, whether its group is complete, rebuilt or refused.
* `Decoder.decode_exchanges`: **the account of a packet**, whatever its bytes are.
-/

namespace PacketFec

/-! ### Senders -/

namespace Encoder

variable {g : Geometry} {offset : ℕ} {e e' : Encoder} {pool pool' : BufferPool}

/-- The buffers of the scratch slots. -/
def buffers (e : Encoder) : List Buffer := e.scratch.map (·.buffer)

/-- Slots that have been written to, and may have grown then. -/
def Grown (slots slots' : List ScratchSlot) : Prop :=
  List.Forall₂ (fun s t => s.buffer.capacity ≤ t.buffer.capacity) slots slots'

theorem grown_refl (slots : List ScratchSlot) : Grown slots slots := List.forall₂_same.2 fun _ _ => le_rfl

theorem Grown.append {slots slots' more more' : List ScratchSlot} (h : Grown slots slots') (h' : Grown more more') :
    Grown (slots ++ more) (slots' ++ more') := List.rel_append h h'

theorem grown_map (f : ScratchSlot → ScratchSlot) (hf : ∀ s, s.buffer.capacity ≤ (f s).buffer.capacity)
    (slots : List ScratchSlot) : Grown slots (slots.map f) :=
  List.forall₂_map_right_iff.2 (List.forall₂_same.2 fun s _ => hf s)

theorem grown_set {slots : List ScratchSlot} {i : ℕ} {s t : ScratchSlot} (hi : slots[i]? = some s)
    (hle : s.buffer.capacity ≤ t.buffer.capacity) : Grown slots (slots.set i t) := by
  induction slots generalizing i with
  | nil => exact .nil
  | cons first rest ih =>
    cases i with
    | zero =>
      cases hi
      exact .cons hle (grown_refl rest)
    | succ i => exact .cons le_rfl (ih hi)

theorem Grown.trans {slots slots' slots'' : List ScratchSlot} (h : Grown slots slots') (h' : Grown slots' slots'') :
    Grown slots slots'' := by
  induction h generalizing slots'' with
  | nil => exact h'
  | cons hle _ ih =>
    cases h' with
    | cons hle' hrest => exact .cons (hle.trans hle') (ih hrest)

/-- Writing to a slot can only make it grow. -/
theorem capacity_write (s : ScratchSlot) (start : ℕ) (part : Bytes) :
    s.buffer.capacity ≤ (s.write start part).buffer.capacity := le_max_left _ _

theorem store_grown {size : ℕ} {body : Bytes} (h : e.store size body = .ok e') : Grown e.scratch e'.scratch := by
  unfold store at h
  split at h
  · cases h
  · rename_i slot hslot
    split at h
    · cases h
    · cases h
      exact grown_set hslot (capacity_write _ _ _)

theorem advance_scratch {n : ℕ} (h : e.advance n = .ok e') : e'.scratch = e.scratch := by
  obtain ⟨next, -, h⟩ := Checked.bind_eq_ok.1 h
  cases h
  rfl

theorem sealParity_grown {slots slots' : List ScratchSlot} {bodies : List Bytes}
    (h : e.sealParity slots bodies = .ok (e', slots')) : Grown slots slots' := by
  induction slots generalizing e bodies slots' with
  | nil =>
    cases h
    exact .nil
  | cons s rest ih =>
    cases bodies with
    | nil =>
      cases h
      exact grown_refl _
    | cons body bodies =>
      obtain ⟨e₁, -, h⟩ := Checked.bind_eq_ok.1 h
      obtain ⟨⟨e₂, rest'⟩, hrest, h⟩ := Checked.bind_eq_ok.1 h
      cases h
      exact .cons ((capacity_write _ _ _).trans (capacity_write _ _ _)) (ih hrest)

theorem protect_grown (h : e.protect = .ok (some e')) : Grown e.scratch e'.scratch := by
  obtain ⟨-, parity, e₁, spare, -, hseal, rfl⟩ := protect_inv h
  have hdata := grown_map (·.pad e.longest) (fun s => capacity_write s _ _) (e.scratch.take e.geometry.data)
  have hall := hdata.append (sealParity_grown hseal)
  rwa [List.take_append_drop] at hall

theorem finishGroup_grown {counters counters' : Counters} {continuous : Bool} {parity : List Bytes}
    (h : e.finishGroup counters continuous = .ok (e', counters', parity)) : Grown e.scratch e'.scratch := by
  unfold finishGroup at h
  split at h
  · obtain ⟨protected?, hprotect, h⟩ := Checked.bind_eq_ok.1 h
    cases protected? with
    | some e₁ =>
      have hgrown := protect_grown hprotect
      cases h
      exact hgrown
    | none =>
      obtain ⟨e₁, hadvance, h⟩ := Checked.bind_eq_ok.1 h
      cases h
      exact (advance_scratch hadvance) ▸ grown_refl _
  · obtain ⟨e₁, hadvance, h⟩ := Checked.bind_eq_ok.1 h
    cases h
    exact (advance_scratch hadvance) ▸ grown_refl _

/-- A sender keeps its buffers when it seals a packet. -/
theorem encode_grown {counters : Counters} {packet : Bytes} {staleness now : ℕ} {s : Sealed}
    (h : e.encode counters packet staleness now = .ok s) : Grown e.scratch s.encoder.scratch := by
  unfold encode at h
  obtain ⟨_, -, h⟩ := Checked.bind_eq_ok.1 h
  obtain ⟨e₁, hadvance, h⟩ := Checked.bind_eq_ok.1 h
  obtain ⟨stored, hstore, h⟩ := Checked.bind_eq_ok.1 h
  have hstored := store_grown hstore
  rw [advance_scratch hadvance] at hstored
  simp only at h
  split at h
  · obtain ⟨⟨done, counters', parity⟩, hdone, h⟩ := Checked.bind_eq_ok.1 h
    have hfinished := finishGroup_grown hdone
    cases h
    exact hstored.trans hfinished
  · cases h
    exact hstored

theorem encode_exchanges {counters : Counters} {packet : Bytes} {staleness now : ℕ} {s : Sealed}
    (h : e.encode counters packet staleness now = .ok s) (pool : BufferPool) :
    pool.Exchanges ↑e.buffers pool ↑s.encoder.buffers := by
  apply BufferPool.exchanges_of_grown
  exact List.forall₂_map_left_iff.2 (List.forall₂_map_right_iff.2 (encode_grown h))

/-- A new sender holds the buffers that it has taken. -/
theorem create_exchanges (h : create g offset pool = .ok (e, pool')) : pool.Exchanges 0 pool' ↑e.buffers := by
  unfold create at h
  obtain ⟨_, -, h⟩ := Checked.bind_eq_ok.1 h
  obtain ⟨_, -, h⟩ := Checked.bind_eq_ok.1 h
  obtain ⟨_, -, h⟩ := Checked.bind_eq_ok.1 h
  split at h
  · cases h
  · obtain ⟨_, -, h⟩ := Checked.bind_eq_ok.1 h
    obtain ⟨size, -, h⟩ := Checked.bind_eq_ok.1 h
    cases h
    rw [buffers, List.map_map, show (ScratchSlot.buffer ∘ fun b => ⟨b, 0⟩) = id from rfl, List.map_id]
    exact BufferPool.exchanges_acquireMany pool size

theorem close_exchanges (e : Encoder) (pool : BufferPool) : pool.Exchanges ↑e.buffers (e.close pool) 0 :=
  BufferPool.exchanges_releaseAll pool _

end Encoder

/-! ### Tables of sets -/

/-- A set that does not absorb a shard has an empty slot for it. -/
theorem ShardSet.vacant_of_absorbs {s : ShardSet} {position : ℕ} (h : s.absorbs position = .ok false) :
    s.slots[position]? = some none := by
  unfold absorbs at h
  split at h
  · cases h
  · split at h
    · cases h
    · rename_i slot hslot
      rw [hslot]
      cases slot with
      | none => rfl
      | some b => cases h

namespace SetTable

/-- A set that replaces another one in a table replaces its buffers. -/
theorem buffers_put (t : SetTable) (k : ℕ) (s : ShardSet) (n : ℕ) :
    ((t.put k s).buffers + ((t.get? k).getD (.empty n)).buffers : Multiset Buffer) = t.buffers + s.buffers := by
  induction t with
  | nil =>
    have hempty : (ShardSet.empty n).buffers = [] := ShardSet.buffers_replicate n
    simp [put, get?, buffers, hempty]
  | cons entry rest ih =>
    obtain ⟨g, old⟩ := entry
    rw [get?_cons, put]
    by_cases hg : g = k
    · rw [if_pos hg, if_pos hg.symm, Option.getD_some, buffers, buffers, List.flatMap_cons, List.flatMap_cons,
        ← Multiset.coe_add, ← Multiset.coe_add]
      abel
    · rw [if_neg hg, if_neg (Ne.symm hg)]
      unfold buffers at ih ⊢
      rw [List.flatMap_cons, List.flatMap_cons, ← Multiset.coe_add, ← Multiset.coe_add, add_assoc, ih, add_assoc]

/-- A table splits into what passes a filter and what does not. -/
theorem buffers_filter (t : SetTable) (p : ℕ × ShardSet → Bool) :
    (buffers (t.filter p) + buffers (t.filter fun entry => !p entry) : Multiset Buffer) = t.buffers := by
  induction t with
  | nil => rfl
  | cons entry rest ih =>
    unfold buffers at ih ⊢
    by_cases hp : p entry = true
    · rw [List.filter_cons_of_pos hp, List.filter_cons_of_neg (by simpa using hp), List.flatMap_cons,
        List.flatMap_cons, ← Multiset.coe_add, ← Multiset.coe_add, add_assoc, ih]
    · rw [List.filter_cons_of_neg hp, List.filter_cons_of_pos (by simpa using hp), List.flatMap_cons,
        List.flatMap_cons, ← Multiset.coe_add, ← Multiset.coe_add, ← ih]
      abel

end SetTable

/-! ### Receivers -/

namespace Decoder

variable {g : Geometry} {d : Decoder} {shared shared' : Shared} {t : Decoded}

/-- Buffers that are given a content stay on the account. -/
theorem exchanges_hold (pool : BufferPool) (content : Buffer → Bytes) (bs : List Buffer) :
    pool.Exchanges ↑bs pool ↑(bs.map fun b => b.hold (content b)) :=
  pool.exchanges_of_grown (List.forall₂_map_right_iff.2 (List.forall₂_same.2 fun _ _ => le_max_left _ _))

/-- Buffers that take some bodies stay on the account. -/
theorem exchanges_zipWith (pool : BufferPool) {bs : List Buffer} {bodies : List Bytes}
    (h : bodies.length = bs.length) : pool.Exchanges ↑bs pool ↑(List.zipWith Buffer.hold bs bodies) := by
  apply pool.exchanges_of_grown
  induction bs generalizing bodies with
  | nil => exact .nil
  | cons b rest ih =>
    cases bodies with
    | nil => cases h
    | cons body bodies => exact .cons (le_max_left _ _) (ih (Nat.succ.inj h))

/-- Buffers of an account that are handed back, with some that are on no account. -/
theorem exchanges_releaseAll_append (pool : BufferPool) (bs : List Buffer) (n : ℕ) :
    pool.Exchanges ↑bs (pool.releaseAll (bs ++ List.replicate n .empty)) 0 := by
  rw [BufferPool.releaseAll, List.foldl_append]
  exact (pool.exchanges_releaseAll bs).trans (BufferPool.exchanges_releaseAll_empty _ n)

/-- **The account of a drained set**: all its shards come back, and what is given away has been taken. -/
theorem reconstruct_exchanges {slots : List (Option Buffer)} {recovered : List Buffer}
    (h : reconstruct g shared slots = .ok (shared', recovered)) :
    shared.pool.Exchanges ↑(slots.filterMap id) shared'.pool ↑recovered := by
  unfold reconstruct at h
  split at h
  · cases h
  simp only at h
  set bodies := slots.map (·.map fun b => b.hold (b.bytes.drop headerSize)) with hbodies
  set lost := (bodies.take g.data).countP Option.isNone with hlost
  have hheld : shared.pool.Exchanges ↑(slots.filterMap id) shared.pool ↑(bodies.filterMap id) := by
    rw [hbodies, filterMap_map_map]
    exact exchanges_hold shared.pool _ _
  split at h
  · -- the group is complete
    cases h
    exact hheld.trans (exchanges_releaseAll_append shared.pool _ _)
  · set width := ((bodies.filterMap id).map (·.bytes.length)).foldl max 0 with hwidth
    set padded := bodies.map (·.map (·.resize width 0)) with hpadded
    have hpadding : shared.pool.Exchanges ↑(bodies.filterMap id) shared.pool ↑(padded.filterMap id) := by
      rw [hpadded, filterMap_map_map (fun b => b.resize width 0) bodies]
      exact exchanges_hold shared.pool _ _
    -- blanks are taken while the shards are held
    set blanks := (shared.pool.acquireMany lost).1 with hblanks
    set pool := (shared.pool.acquireMany lost).2 with hpool
    have htaken : shared.pool.Exchanges ↑(slots.filterMap id) pool
        (↑(blanks.map (·.resize width 0)) + ↑(padded.filterMap id)) := by
      have hblank := (shared.pool.exchanges_acquireMany lost).trans (exchanges_hold pool (·.bytes.resize width 0) blanks)
      have hframed := hblank.frame ↑(padded.filterMap id)
      rw [zero_add] at hframed
      exact (hheld.trans hpadding).trans hframed
    split at h
    · -- the missing bodies are rebuilt
      rename_i restored hrestore
      cases h
      have hlen : restored.length = (blanks.map (·.resize width 0)).length := by
        rw [Code.length_restore hrestore, countP_isNone_take, hpadded, countP_isNone_take, List.length_map, hblanks,
          BufferPool.length_acquireMany]
      have hgiven := (exchanges_zipWith pool hlen).frame ↑(padded.filterMap id)
      have hback := (exchanges_releaseAll_append pool (padded.filterMap id)
        (lost + (bodies.drop g.data).countP Option.isNone)).frame
          ↑(List.zipWith Buffer.hold (blanks.map (·.resize width 0)) restored)
      rw [zero_add, add_comm, ← List.replicate_append_replicate, ← List.append_assoc] at hback
      exact (htaken.trans hgiven).trans hback
    · -- the code refuses the group
      cases h
      rw [add_comm, Multiset.coe_add] at htaken
      exact htaken.trans (exchanges_releaseAll_append pool _ _)

/-- The account of a shard put into an empty slot. -/
theorem place_exchanges {shard : Shard} {group position size : ℕ}
    (hvacant : ((d.sets.get? group).getD (.empty size)).slots[position]? = some none)
    (h : d.place shared shard group position ((d.sets.get? group).getD (.empty size)) = .ok t) :
    shared.pool.Exchanges ↑d.sets.buffers t.shared.pool (↑t.decoder.sets.buffers + ↑t.recovered) := by
  unfold place at h
  set set := (d.sets.get? group).getD (.empty size) with hset
  set counted := if shard.kind = .parity then shared.count .parityShards 1 else shared with hcounted
  have hpool : counted.pool = shared.pool := by
    rw [hcounted]
    split <;> rfl
  simp only [hpool] at h
  set b := (shared.pool.acquire.1.hold []).hold shard.bytes with hb
  have hgrown : List.Forall₂ (fun b c => b.capacity ≤ c.capacity) [shared.pool.acquire.1] [b] :=
    .cons ((le_max_left _ _).trans (le_max_left _ _)) .nil
  have htaken : shared.pool.Exchanges 0 shared.pool.acquire.2 {b} :=
    shared.pool.exchanges_acquire.trans (BufferPool.exchanges_of_grown _ hgrown)
  have hinsert : ((set.insert position b).buffers : Multiset Buffer) = set.buffers + {b} := by
    obtain ⟨l₁, l₂, h1, h2⟩ := ShardSet.buffers_set hvacant b
    rw [ShardSet.buffers, ShardSet.buffers, h1, ShardSet.insert, h2, ← Multiset.coe_add, ← Multiset.coe_add,
      ← Multiset.cons_coe, ← Multiset.singleton_add]
    abel
  have hfilled := htaken.frame ↑d.sets.buffers
  rw [zero_add] at hfilled
  split at h
  · -- the set is full and drained
    obtain ⟨⟨shared', recovered⟩, hrebuild, h⟩ := Checked.bind_eq_ok.1 h
    cases h
    have hput := SetTable.buffers_put d.sets group (set.insert position b).drain size
    rw [← hset, show (set.insert position b).drain.buffers = [] from ShardSet.buffers_replicate _, Multiset.coe_nil,
      add_zero] at hput
    have hrebuilt := (reconstruct_exchanges hrebuild).frame
      ↑(d.sets.put group (set.insert position b).drain).buffers
    have hall : ({b} + d.sets.buffers : Multiset Buffer) =
        (set.insert position b).slots.filterMap id + (d.sets.put group (set.insert position b).drain).buffers := by
      rw [← hput, show ((set.insert position b).slots.filterMap id : Multiset Buffer) = _ from hinsert]
      abel
    rw [hall] at hfilled
    rw [add_comm ((d.sets.put group (set.insert position b).drain).buffers : Multiset Buffer)]
    exact hfilled.trans hrebuilt
  · cases h
    have hput := SetTable.buffers_put d.sets group (set.insert position b) size
    rw [← hset, hinsert, add_comm (set.buffers : Multiset Buffer), ← add_assoc, add_left_inj] at hput
    rw [Multiset.coe_nil, add_zero, hput, add_comm]
    exact hfilled

/-- Moving the floor touches no buffer. -/
theorem raiseFloor_keeps (d : Decoder) (shared : Shared) (group groups : ℕ) :
    (d.raiseFloor shared group groups).1.sets = d.sets ∧
      (d.raiseFloor shared group groups).2.pool = shared.pool := by
  unfold raiseFloor
  simp only
  split_ifs <;> exact ⟨rfl, rfl⟩

/-- The account of an eviction. -/
theorem evict_exchanges (d : Decoder) (shared : Shared) (groups : ℕ) :
    shared.pool.Exchanges ↑d.sets.buffers (d.evict shared groups).2.pool ↑(d.evict shared groups).1.sets.buffers := by
  unfold evict
  split
  · exact .refl _ _
  · rename_i floor hfloor
    have hsplit := SetTable.buffers_filter d.sets fun entry => lags floor groups entry.1
    have hstale := (shared.pool.exchanges_releaseAll (SetTable.buffers
      (d.sets.filter fun entry => lags floor groups entry.1))).frame
        ↑(SetTable.buffers (d.sets.filter fun entry => !lags floor groups entry.1))
    rw [hsplit, zero_add] at hstale
    exact hstale

/-- The account of a shard that is dropped. -/
theorem exchanges_dropped (d : Decoder) (pool : BufferPool) :
    pool.Exchanges ↑d.sets.buffers pool (↑d.sets.buffers + ↑([] : List Buffer)) := by
  rw [Multiset.coe_nil, add_zero]
  exact .refl _ _

/-- The account of a shard at its place. -/
theorem receive_exchanges {shard : Shard} (h : d.receive shared shard = .ok t) :
    shared.pool.Exchanges ↑d.sets.buffers t.shared.pool (↑t.decoder.sets.buffers + ↑t.recovered) := by
  unfold receive at h
  obtain ⟨groups, -, h⟩ := Checked.bind_eq_ok.1 h
  obtain ⟨group, -, h⟩ := Checked.bind_eq_ok.1 h
  simp only at h
  split at h
  · cases h
    exact exchanges_dropped d shared.pool
  obtain ⟨size, -, h⟩ := Checked.bind_eq_ok.1 h
  obtain ⟨position, -, h⟩ := Checked.bind_eq_ok.1 h
  obtain ⟨absorbed, habsorbs, h⟩ := Checked.bind_eq_ok.1 h
  split at h
  · cases h
    exact exchanges_dropped d shared.pool
  · rename_i hfree
    obtain ⟨taken, hplace, h⟩ := Checked.bind_eq_ok.1 h
    cases h
    have hvacant := ShardSet.vacant_of_absorbs (by simpa [hfree] using habsorbs)
    obtain ⟨hsets, hpool⟩ := raiseFloor_keeps taken.decoder taken.shared group groups
    have hevict := (evict_exchanges (taken.decoder.raiseFloor taken.shared group groups).1
      (taken.decoder.raiseFloor taken.shared group groups).2 groups).frame ↑taken.recovered
    rw [hsets, hpool] at hevict
    exact (place_exchanges hvacant hplace).trans hevict

/-- The account of a shard that does not stand at its place. -/
theorem retune_exchanges (h : d.retune shared = .ok t) :
    shared.pool.Exchanges ↑d.sets.buffers t.shared.pool (↑t.decoder.sets.buffers + ↑t.recovered) := by
  unfold retune at h
  split at h
  · cases h
    exact exchanges_dropped d shared.pool
  split at h
  · cases h
    exact exchanges_dropped d shared.pool
  split at h
  · obtain ⟨retunes, -, h⟩ := Checked.bind_eq_ok.1 h
    cases h
    exact shared.pool.exchanges_releaseAll d.sets.buffers
  · cases h
    exact exchanges_dropped d shared.pool

/-- **The account of a packet**: what a receiver holds and gives away behind it is what it held before and what it has
taken, less what it has handed back. -/
theorem decode_exchanges {packet : Bytes} (h : d.decode shared packet = .ok t) :
    shared.pool.Exchanges ↑d.sets.buffers t.shared.pool (↑t.decoder.sets.buffers + ↑t.recovered) := by
  unfold decode at h
  split at h
  · cases h
    exact exchanges_dropped d shared.pool
  · rename_i shard hparse
    obtain ⟨kind, -, h⟩ := Checked.bind_eq_ok.1 h
    split at h
    · exact receive_exchanges (d := d.noted shard) h
    · exact retune_exchanges (d := d.noted shard) h

theorem close_exchanges (d : Decoder) (pool : BufferPool) : pool.Exchanges ↑d.sets.buffers (d.close pool) 0 :=
  pool.exchanges_releaseAll _

end Decoder

end PacketFec
