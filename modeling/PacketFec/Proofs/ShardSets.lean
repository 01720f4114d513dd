import Mathlib
import PacketFec.Geometry
import PacketFec.Limits
import PacketFec.ShardSet

/-!
# Shard sets and the table that holds them

* `SetTable.get?_put_self`, `SetTable.get?_filter`: what the table holds after it changed.
* `SetTable.map_fst_put`, `SetTable.nodup_put`: a group has one set.
* `ShardSet.Sound`: a set has one slot for each shard of a group, counts its members, and each member is long
  enough for a header.
* `ShardSet.sound_empty`, `ShardSet.sound_insert`, `ShardSet.sound_drain`: the operations keep that.
-/

namespace PacketFec

namespace SetTable

variable {t : SetTable} {k k' : ℕ} {s : ShardSet}

theorem get?_cons (g : ℕ) (old : ShardSet) (t : SetTable) (k : ℕ) :
    get? ((g, old) :: t) k = if k = g then some old else t.get? k := by
  unfold get?
  rw [List.lookup_cons]
  by_cases h : k = g
  · simp [h]
  · rw [if_neg h, beq_false_of_ne h]

theorem get?_put_self (t : SetTable) (k : ℕ) (s : ShardSet) : (t.put k s).get? k = some s := by
  induction t with
  | nil => rw [put, get?_cons, if_pos rfl]
  | cons entry rest ih =>
    obtain ⟨g, old⟩ := entry
    unfold put
    split
    · rename_i h
      rw [get?_cons, if_pos h.symm]
    · rename_i h
      rw [get?_cons, if_neg (Ne.symm h), ih]

theorem mem_put {entry : ℕ × ShardSet} (h : entry ∈ t.put k s) : entry = (k, s) ∨ entry ∈ t := by
  induction t with
  | nil => exact .inl (List.mem_singleton.1 h)
  | cons head rest ih =>
    obtain ⟨g, old⟩ := head
    unfold put at h
    split at h
    · rename_i hg
      subst hg
      rcases List.mem_cons.1 h with h | h
      · exact .inl h
      · exact .inr (List.mem_cons_of_mem _ h)
    · rcases List.mem_cons.1 h with h | h
      · exact .inr (h ▸ List.mem_cons_self ..)
      · exact (ih h).imp_right (List.mem_cons_of_mem _)

theorem mem_put_of_mem {entry : ℕ × ShardSet} (h : entry ∈ t) (hne : entry.1 ≠ k) : entry ∈ t.put k s := by
  induction t with
  | nil => cases h
  | cons head rest ih =>
    obtain ⟨g, old⟩ := head
    unfold put
    split
    · rename_i hg
      rcases List.mem_cons.1 h with rfl | h
      · exact absurd hg hne
      · exact List.mem_cons_of_mem _ h
    · rcases List.mem_cons.1 h with rfl | h
      · exact List.mem_cons_self ..
      · exact List.mem_cons_of_mem _ (ih h)

/-- A group keeps its place in the table, and a new one comes last. -/
theorem map_fst_put (t : SetTable) (k : ℕ) (s : ShardSet) :
    (t.put k s).map Prod.fst = if k ∈ t.map Prod.fst then t.map Prod.fst else t.map Prod.fst ++ [k] := by
  induction t with
  | nil => rfl
  | cons head rest ih =>
    obtain ⟨g, old⟩ := head
    unfold put
    split
    · rename_i hg
      subst hg
      rw [List.map_cons, List.map_cons, if_pos (List.mem_cons_self ..)]
    · rename_i hg
      rw [List.map_cons, List.map_cons, ih]
      by_cases hk : k ∈ rest.map Prod.fst
      · rw [if_pos hk, if_pos (List.mem_cons_of_mem _ hk)]
      · have hk' : k ∉ g :: rest.map Prod.fst := by
          intro hmem
          rcases List.mem_cons.1 hmem with rfl | hmem
          · exact hg rfl
          · exact hk hmem
        rw [if_neg hk, if_neg hk', List.cons_append]

theorem nodup_put (h : (t.map Prod.fst).Nodup) : ((t.put k s).map Prod.fst).Nodup := by
  rw [map_fst_put]
  split
  · exact h
  · rename_i hk
    exact List.nodup_append.2 ⟨h, List.nodup_singleton _, by
      intro a ha b hb hab
      rw [List.mem_singleton] at hb
      exact hk (hb ▸ hab ▸ ha)⟩

theorem mem_of_get? (h : t.get? k = some s) : (k, s) ∈ t := by
  obtain ⟨l₁, l₂, rfl, -⟩ := List.lookup_eq_some_iff.1 h
  exact List.mem_append_right _ (List.mem_cons_self ..)

theorem get?_eq_none_of_forall (h : ∀ entry ∈ t, entry.1 ≠ k) : t.get? k = none := by
  rw [get?, List.lookup_eq_none_iff]
  intro entry hentry
  simpa using (h entry hentry).symm

theorem get?_ne_none (h : k ∈ t.map Prod.fst) : t.get? k ≠ none := by
  obtain ⟨entry, hentry, rfl⟩ := List.mem_map.1 h
  rw [get?, ne_eq, List.lookup_eq_none_iff]
  intro hall
  simpa using hall entry hentry

/-- A filter on the keys keeps the sets of the keys that pass. -/
theorem get?_filter (p : ℕ → Bool) (h : p k = true) :
    SetTable.get? (t.filter fun entry => p entry.1) k = t.get? k := by
  induction t with
  | nil => rfl
  | cons entry rest ih =>
    obtain ⟨g, old⟩ := entry
    rw [get?_cons]
    by_cases hp : p g = true
    · rw [List.filter_cons_of_pos (by simpa using hp), get?_cons, ih]
    · have hk : k ≠ g := fun hk => hp (hk ▸ h)
      rw [List.filter_cons_of_neg (by simpa using hp), ih, if_neg hk]

end SetTable

namespace ShardSet

variable {s : ShardSet} {g : Geometry}

/-- A set of a group: a slot for each shard, a true count of the members, and a header in each of them. -/
structure Sound (s : ShardSet) (g : Geometry) : Prop where
  length_eq : s.slots.length = g.total
  members_eq : s.members = s.buffers.length
  headed : ∀ b ∈ s.buffers, headerSize ≤ b.bytes.length

theorem buffers_replicate (n : ℕ) : (List.replicate n (none : Option Buffer)).filterMap id = [] := by
  rw [List.filterMap_eq_nil_iff]
  intro o ho
  rw [List.eq_of_mem_replicate ho]
  rfl

theorem sound_empty (g : Geometry) : (empty g.total).Sound g where
  length_eq := List.length_replicate
  members_eq := by rw [buffers, empty, buffers_replicate]; rfl
  headed := by rw [buffers, empty, buffers_replicate]; nofun

theorem sound_drain (h : s.Sound g) : s.drain.Sound g where
  length_eq := by rw [drain, List.length_replicate, h.length_eq]
  members_eq := by rw [buffers, drain, buffers_replicate]; rfl
  headed := by rw [buffers, drain, buffers_replicate]; nofun

/-- A shard put into an empty slot is one more among the members. -/
theorem buffers_set {slots : List (Option Buffer)} {i : ℕ} (hi : slots[i]? = some none) (b : Buffer) :
    ∃ l₁ l₂, slots.filterMap id = l₁ ++ l₂ ∧ (slots.set i (some b)).filterMap id = l₁ ++ b :: l₂ := by
  obtain ⟨hlt, hnone⟩ := List.getElem?_eq_some_iff.1 hi
  refine ⟨(slots.take i).filterMap id, (slots.drop (i + 1)).filterMap id, ?_, ?_⟩
  · conv_lhs => rw [← List.take_append_drop i slots, List.drop_eq_getElem_cons hlt, hnone]
    rw [List.filterMap_append]
    rfl
  · rw [List.set_eq_take_append_cons_drop, if_pos hlt, List.filterMap_append]
    rfl

theorem sound_insert (h : s.Sound g) {i : ℕ} (hi : s.slots[i]? = some none) {b : Buffer}
    (hb : headerSize ≤ b.bytes.length) : (s.insert i b).Sound g := by
  obtain ⟨l₁, l₂, h1, h2⟩ := buffers_set hi b
  refine ⟨by rw [insert, List.length_set, h.length_eq], ?_, ?_⟩
  · have hm := h.members_eq
    rw [buffers, h1] at hm
    rw [buffers, insert, h2, hm]
    simp only [List.length_append, List.length_cons]
    omega
  · rw [buffers, insert, h2]
    intro c hc
    have hold := h.headed
    rw [buffers, h1] at hold
    rcases List.mem_append.1 hc with hc | hc
    · exact hold c (List.mem_append_left _ hc)
    · rcases List.mem_cons.1 hc with rfl | hc
      · exact hb
      · exact hold c (List.mem_append_right _ hc)

/-- A set of a group can be asked for every place of the group. -/
theorem absorbs_cases (h : s.slots.length = g.total) {i : ℕ} (hi : i < g.total) :
    s.absorbs i = .ok true ∨ s.absorbs i = .ok false ∧ s.drained = false ∧ s.slots[i]? = some none := by
  unfold absorbs
  cases s.drained with
  | true => exact .inl rfl
  | false =>
    rw [List.getElem?_eq_getElem (by omega)]
    cases hslot : s.slots[i] with
    | some b => exact .inl (by simp)
    | none => exact .inr ⟨by simp, rfl, rfl⟩

end ShardSet

end PacketFec
