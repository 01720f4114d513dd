import Mathlib
import PacketFec.Proofs.Interpolation
import PacketFec.Proofs.Numbering
import PacketFec.Shard.Header

/-!
# The shards of a group

The bodies of a group have their own lengths. The code works on bodies that are filled up to the longest one,
on the sender's side and on the receiver's.

* `evened`: the bodies of a group, filled up.
* `parityBody`, `wireShard`: the parity of a group, and what goes on the wire.
* `levelled`: what the receiver's code sees of the slots of a group.
* `restore_levelled`: **the receiver's code gives back what the sender's code evened out.**
-/

namespace PacketFec

/-- Length of the longest of some bodies. -/
def width (bodies : List Bytes) : ℕ := (bodies.map List.length).foldl max 0

/-- The bodies filled up with zeros to the longest one. -/
def evened (bodies : List Bytes) : List Bytes := bodies.map (·.resize (width bodies) 0)

theorem width_concat (bodies : List Bytes) (b : Bytes) :
    width (bodies ++ [b]) = max (width bodies) b.length := by
  simp [width]

theorem length_le_width {bodies : List Bytes} {b : Bytes} (hb : b ∈ bodies) : b.length ≤ width bodies := by
  induction bodies using List.reverseRecOn with
  | nil => simp at hb
  | append_singleton bs c ih =>
    rw [width_concat]
    rcases List.mem_append.1 hb with h | h
    · exact le_trans (ih h) (le_max_left _ _)
    · rw [List.mem_singleton.1 h]; exact le_max_right _ _

theorem width_le {bodies : List Bytes} {w : ℕ} (h : ∀ b ∈ bodies, b.length ≤ w) : width bodies ≤ w := by
  induction bodies using List.reverseRecOn with
  | nil => exact Nat.zero_le _
  | append_singleton bs c ih =>
    rw [width_concat]
    exact max_le (ih fun b hb => h b (List.mem_append_left _ hb)) (h c (by simp))

theorem length_getD_le_width (bodies : List Bytes) (i : ℕ) :
    (bodies.getD i []).length ≤ width bodies := by
  by_cases hi : i < bodies.length
  · rw [List.getD_eq_getElem _ _ hi]
    exact length_le_width (List.getElem_mem hi)
  · rw [List.getD_eq_default _ _ (by omega)]
    exact Nat.zero_le _

@[simp] theorem length_evened (bodies : List Bytes) : (evened bodies).length = bodies.length := by
  simp [evened]

theorem length_of_mem_evened {bodies : List Bytes} {s : Bytes} (hs : s ∈ evened bodies) :
    s.length = width bodies := by
  obtain ⟨b, -, rfl⟩ := List.mem_map.1 hs
  simp

/-- The body of the parity shard at a place of a group with the given bodies. -/
def parityBody (g : Geometry) (bodies : List Bytes) (place : ℕ) : Bytes :=
  Code.codeword g (width bodies) (evened bodies) place

/-- The body of the shard at a place of a group with the given bodies. -/
def shardBody (g : Geometry) (bodies : List Bytes) (place : ℕ) : Bytes :=
  if place < g.data then bodies.getD place [] else parityBody g bodies place

/-- A shard on the wire. -/
def wireShard (g : Geometry) (base x : ℕ) (kind : Kind) (body : Bytes) : Bytes :=
  Header.toBytes ⟨g.seqidAt base x, kind⟩ ++ body

/-! ### Slots of a group -/

/-- The slots of a group, each filled up to the longest body in them. -/
def levelled (slots : List (Option Bytes)) : List (Option Bytes) :=
  slots.map (·.map (·.resize (width (slots.filterMap id)) 0))

theorem filterMap_map_map {α β : Type} (f : α → β) (slots : List (Option α)) :
    (slots.map (·.map f)).filterMap id = (slots.filterMap id).map f := by
  simp [List.filterMap_map, List.map_filterMap]

@[simp] theorem length_levelled (slots : List (Option Bytes)) : (levelled slots).length = slots.length := by
  simp [levelled]

theorem getD_levelled (slots : List (Option Bytes)) (p : ℕ) : (levelled slots).getD p none =
    (slots.getD p none).map (·.resize (width (slots.filterMap id)) 0) := by
  rw [levelled, List.getD_eq_getElem?_getD, List.getElem?_map, List.getD_eq_getElem?_getD]
  cases slots[p]? <;> rfl

theorem getD_levelled_eq_none_iff {slots : List (Option Bytes)} {p : ℕ} :
    (levelled slots).getD p none = none ↔ slots.getD p none = none := by
  rw [getD_levelled, Option.map_eq_none_iff]

theorem filterMap_levelled (slots : List (Option Bytes)) :
    (levelled slots).filterMap id = evened (slots.filterMap id) := filterMap_map_map _ _

/-- The code refuses enough shards of a group only where all their bodies are empty. -/
theorem body_nil_of_restore {g : Geometry} (hg : g.Valid) {slots : List (Option Bytes)}
    (hs : slots.length = g.total) (hen : g.data ≤ (slots.filterMap id).length)
    (h : Code.restore g (levelled slots) = none) : ∀ b ∈ slots.filterMap id, b = [] := by
  have hzero : width (slots.filterMap id) = 0 := by
    by_contra hne
    refine Code.restore_ne_none hg (Nat.pos_of_ne_zero hne) (by rw [length_levelled, hs]) ?_ ?_ h
    · rw [filterMap_levelled]
      exact fun s hs => length_of_mem_evened hs
    · rw [filterMap_levelled, length_evened]
      exact hen
  intro b hb
  have := length_le_width hb
  exact List.eq_nil_of_length_eq_zero (by omega)

section

variable {g : Geometry} {bodies : List Bytes} {slots : List (Option Bytes)}

theorem length_parityBody (hlen : bodies.length = g.data) (p : ℕ) :
    (parityBody g bodies p).length = width bodies :=
  Code.length_codeword (by rw [length_evened, hlen]) (fun _ hs => length_of_mem_evened hs) p

theorem resize_shardBody (hlen : bodies.length = g.data) (p : ℕ) :
    (shardBody g bodies p).resize (width bodies) 0 = Code.codeword g (width bodies) (evened bodies) p := by
  unfold shardBody
  split
  · rename_i hp
    have hb : p < bodies.length := by omega
    rw [Code.codeword, if_pos hp, List.getD_eq_getElem _ _ hb, List.getD_eq_getElem _ _ (by simpa using hb)]
    simp [evened]
  · have hl := length_parityBody hlen p
    rw [Bytes.resize, List.take_of_length_le hl.le, hl, Nat.sub_self, List.replicate_zero, List.append_nil]
    rfl

/-- Where enough shards are there and none of them is parity, no data shard is missing. -/
theorem getD_ne_none_of_no_parity (hs : slots.length = g.total) (hen : g.data ≤ (slots.filterMap id).length)
    (hno : ∀ p, g.data ≤ p → slots.getD p none = none) {p : ℕ} (hp : p < g.data) :
    slots.getD p none ≠ none := by
  have hdrop : (slots.drop g.data).filterMap id = [] := by
    rw [List.filterMap_eq_nil_iff]
    intro o ho
    obtain ⟨i, hi, rfl⟩ := List.mem_iff_getElem.1 ho
    have := hno (g.data + i) (Nat.le_add_right _ _)
    rw [List.length_drop] at hi
    rw [List.getD_eq_getElem _ _ (by omega)] at this
    rw [List.getElem_drop, this]
    rfl
  have htake : g.data ≤ ((slots.take g.data).filterMap id).length := by
    rw [← List.take_append_drop g.data slots, List.filterMap_append, hdrop, List.append_nil] at hen
    exact hen
  have htl : (slots.take g.data).length = g.data := by
    rw [List.length_take, hs]
    exact Nat.min_eq_left (Nat.le_add_right _ _)
  -- a slot without a shard would leave fewer shards than slots
  have hall : ∀ o ∈ slots.take g.data, (id o).isSome := by
    apply List.filterMap_length_eq_length.1
    exact le_antisymm (List.length_filterMap_le _ _) (by omega)
  have hmem : slots.getD p none ∈ slots.take g.data := by
    have hlt : p < (slots.take g.data).length := by omega
    rw [List.length_take] at hlt
    rw [List.getD_eq_getElem _ _ (by omega), List.mem_take_iff_getElem]
    exact ⟨p, hlt, rfl⟩
  exact Option.isSome_iff_ne_none.1 (hall _ hmem)

/-- Where no data shard is missing nothing comes back, whatever the code does. -/
theorem restore_levelled_of_full (hfull : ∀ p < g.data, slots.getD p none ≠ none) :
    (Code.restore g (levelled slots)).getD [] = [] := by
  cases h : Code.restore g (levelled slots) with
  | none => rfl
  | some restored =>
    apply List.eq_nil_of_length_eq_zero
    rw [Option.getD_some, Code.length_restore h, List.countP_eq_zero]
    intro o ho
    obtain ⟨p, hp, rfl⟩ := List.mem_take_iff_getElem.1 ho
    have hlt : p < (levelled slots).length := by omega
    have hsome := hfull p (by omega)
    rw [ne_eq, ← getD_levelled_eq_none_iff, List.getD_eq_getElem _ _ hlt] at hsome
    simpa using hsome

/-- A parity shard is as long as the longest body of the group, and no shard is longer. -/
theorem width_of_parity (hlen : bodies.length = g.data)
    (hslots : ∀ p s, slots.getD p none = some s → s = shardBody g bodies p) {q : ℕ} (hq : g.data ≤ q)
    (hsome : slots.getD q none ≠ none) : width (slots.filterMap id) = width bodies := by
  obtain ⟨s, hsq⟩ := Option.ne_none_iff_exists'.1 hsome
  have hlong : s.length = width bodies := by
    rw [hslots q s hsq, shardBody, if_neg (by omega), length_parityBody hlen]
  apply le_antisymm
  · apply width_le
    intro b hb
    obtain ⟨o, ho, rfl⟩ := List.mem_filterMap.1 hb
    obtain ⟨p, hp, hpo⟩ := List.mem_iff_getElem.1 ho
    rw [hslots p b (by rw [List.getD_eq_getElem _ _ hp, hpo]), shardBody]
    split
    · exact length_getD_le_width _ _
    · exact (length_parityBody hlen p).le
  · rw [← hlong]
    apply length_le_width
    have hlt : q < slots.length := by
      by_contra hge
      rw [List.getD_eq_default _ _ (by omega)] at hsq
      cases hsq
    rw [List.getD_eq_getElem _ _ hlt] at hsq
    exact List.mem_filterMap.2 ⟨_, List.getElem_mem hlt, hsq⟩

/-- **The receiver's code gives back what the sender's code evened out**: from enough shards of a group, its
missing data shards, filled up to the longest body of the group. -/
theorem restore_levelled (hg : g.Valid) (hlen : bodies.length = g.data) (hpos : 0 < width bodies)
    (hs : slots.length = g.total) (hslots : ∀ p s, slots.getD p none = some s → s = shardBody g bodies p)
    (hen : g.data ≤ (slots.filterMap id).length) :
    (Code.restore g (levelled slots)).getD [] =
      ((List.range g.data).filter fun p => slots.getD p none = none).map fun p => (evened bodies).getD p [] := by
  by_cases hno : ∀ p, g.data ≤ p → slots.getD p none = none
  · -- without parity no data shard is missing
    have hfull := fun p hp => getD_ne_none_of_no_parity hs hen hno (p := p) hp
    have hempty : (List.range g.data).filter (fun p => slots.getD p none = none) = [] := by
      rw [List.filter_eq_nil_iff]
      intro p hp
      simpa using hfull p (List.mem_range.1 hp)
    rw [hempty, List.map_nil]
    exact restore_levelled_of_full hfull
  · -- with parity both sides fill up to the same length
    push Not at hno
    obtain ⟨q, hq, hsome⟩ := hno
    have hw := width_of_parity hlen hslots hq hsome
    have hevened : (evened bodies).length = g.data := by rw [length_evened, hlen]
    rw [Code.restore_codeword hevened (fun _ hs => length_of_mem_evened hs) hg hpos
      (by rw [length_levelled, hs]) ?_ (by rw [filterMap_levelled, length_evened]; exact hen), Option.getD_some]
    · simp only [getD_levelled_eq_none_iff]
    · intro p b hb
      rw [getD_levelled, hw, Option.map_eq_some_iff] at hb
      obtain ⟨a, ha, rfl⟩ := hb
      rw [hslots p a ha, resize_shardBody hlen]

end

end PacketFec
