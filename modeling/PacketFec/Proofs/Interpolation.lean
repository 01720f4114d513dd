import Mathlib
import PacketFec.Code
import PacketFec.Proofs.Field

/-!
# Any `D` shards of a group determine the others

In each byte position the shards of a group are the values of one polynomial of degree below `D`. So the
interpolation through any `D` of them has the value of that polynomial at every further point.

* `Code.symbol_interpolate`: interpolation gives the values of every polynomial of small degree that takes
  the given values.
* `Code.restore_codeword`: **any `D` shards of a group give back its missing data shards.**
-/

namespace PacketFec.Code

open Polynomial

/-- The symbol of a shard in a byte position, as an element of the field. -/
def symbol (shard : Bytes) (i : ℕ) : Element := ⟨shard.getD i 0⟩

theorem ext_symbol {s t : Bytes} (hl : s.length = t.length) (h : ∀ i < s.length, symbol s i = symbol t i) :
    s = t := by
  apply List.ext_getElem hl
  intro i hs ht
  simpa [symbol, List.getD_eq_getElem?_getD, hs, ht] using h i hs

@[simp] theorem symbol_zeros (n i : ℕ) : symbol (Bytes.zeros n) i = 0 := by
  simp only [symbol, Bytes.zeros, List.getD_eq_getElem?_getD, List.getElem?_replicate]
  split <;> rfl

/-! ### Weights -/

theorem span_eq_prod (points : List UInt8) (p x : UInt8) :
    (⟨span points p x⟩ : Element) = ((points.filter (· ≠ p)).map fun q => (⟨x⟩ - ⟨q⟩ : Element)).prod := by
  have key : ∀ (l : List UInt8) (acc : UInt8),
      (⟨l.foldl (fun acc q => if q = p then acc else Field.mul acc (Field.add x q)) acc⟩ : Element) =
        ⟨acc⟩ * ((l.filter (· ≠ p)).map fun q => (⟨x⟩ - ⟨q⟩ : Element)).prod := by
    intro l
    induction l with
    | nil => intro acc; simp
    | cons q l ih =>
      intro acc
      by_cases hq : q = p
      · simpa [hq] using ih acc
      · have hmul : (⟨Field.mul acc (Field.add x q)⟩ : Element) = ⟨acc⟩ * (⟨x⟩ - ⟨q⟩) :=
          Element.ext (by rw [Element.byte_mul, Element.byte_sub])
        rw [List.foldl_cons, if_neg hq, ih, hmul, List.filter_cons_of_pos (by simpa using hq), List.map_cons,
          List.prod_cons, mul_assoc]
  rw [span, key, show (⟨1⟩ : Element) = 1 from rfl, one_mul]

/-- The weight of a point is the value of its Lagrange basis polynomial. -/
theorem weight_eq_eval_basis {points : List UInt8} (hnd : points.Nodup) (p x : UInt8) :
    (⟨weight points p x⟩ : Element) = (Lagrange.basis points.toFinset Element.mk p).eval ⟨x⟩ := by
  have hprod : ∀ y : UInt8, (⟨span points p y⟩ : Element) =
      ∏ q ∈ points.toFinset.erase p, ((⟨y⟩ : Element) - ⟨q⟩) := by
    intro y
    rw [span_eq_prod, ← List.prod_toFinset _ (hnd.filter _)]
    congr 1
    ext q
    simp [and_comm]
  have hmul : (⟨weight points p x⟩ : Element) = ⟨span points p x⟩ * (⟨span points p p⟩ : Element)⁻¹ := rfl
  rw [hmul, hprod, hprod, Lagrange.basis, eval_prod, ← Finset.prod_inv_distrib, ← Finset.prod_mul_distrib]
  apply Finset.prod_congr rfl
  intro q _
  simp [Lagrange.basisDivisor, mul_comm]

/-! ### Interpolation -/

theorem length_addScaled (w : UInt8) (shard acc : Bytes) :
    (addScaled w shard acc).length = min shard.length acc.length := by
  rw [addScaled_eq_zipWith, List.length_zipWith]

theorem symbol_addScaled (w : UInt8) {shard acc : Bytes} {i : ℕ} (hs : i < shard.length)
    (ha : i < acc.length) : symbol (addScaled w shard acc) i = symbol acc i + ⟨w⟩ * symbol shard i := by
  ext
  simp [symbol, addScaled_eq_zipWith, List.getD_eq_getElem?_getD, hs, ha]

variable {width : ℕ} {values : List (UInt8 × Bytes)}

/-- Interpolation is the sum of the shards, each times the weight of its point. -/
theorem interpolate_eq_sum (hw : ∀ v ∈ values, v.2.length = width) (x : UInt8) :
    (interpolate width values x).length = width ∧
      ∀ i < width, symbol (interpolate width values x) i =
        (values.map fun v => (⟨weight (values.map Prod.fst) v.1 x⟩ : Element) * symbol v.2 i).sum := by
  have key : ∀ (w : UInt8 → UInt8) (l : List (UInt8 × Bytes)) (acc : Bytes), acc.length = width →
      (∀ v ∈ l, v.2.length = width) →
      (l.foldl (fun acc v => addScaled (w v.1) v.2 acc) acc).length = width ∧
        ∀ i < width, symbol (l.foldl (fun acc v => addScaled (w v.1) v.2 acc) acc) i =
          symbol acc i + (l.map fun v => (⟨w v.1⟩ : Element) * symbol v.2 i).sum := by
    intro w l
    induction l with
    | nil => intro acc ha _; exact ⟨ha, fun i _ => by simp⟩
    | cons v l ih =>
      intro acc ha hl
      have hv := hl v (List.mem_cons_self ..)
      obtain ⟨h1, h2⟩ := ih (addScaled (w v.1) v.2 acc) (by rw [length_addScaled]; omega)
        (fun u hu => hl u (List.mem_cons_of_mem _ hu))
      refine ⟨h1, fun i hi => ?_⟩
      rw [List.foldl_cons, h2 i hi, symbol_addScaled _ (by omega) (by omega), List.map_cons, List.sum_cons,
        add_assoc]
  obtain ⟨h1, h2⟩ := key (fun p => weight (values.map Prod.fst) p x) values (Bytes.zeros width) (by simp) hw
  refine ⟨h1, fun i hi => ?_⟩
  have := h2 i hi
  rwa [symbol_zeros, zero_add] at this

theorem length_interpolate (hw : ∀ v ∈ values, v.2.length = width) (x : UInt8) :
    (interpolate width values x).length = width := (interpolate_eq_sum hw x).1

/-- **Interpolation gives the values of every polynomial that takes the given values**, if its degree is
below their number. -/
theorem symbol_interpolate (hnd : (values.map Prod.fst).Nodup) (hw : ∀ v ∈ values, v.2.length = width)
    {i : ℕ} (hi : i < width) {f : Element[X]} (hdeg : f.degree < values.length)
    (hf : ∀ v ∈ values, symbol v.2 i = f.eval ⟨v.1⟩) (x : UInt8) :
    symbol (interpolate width values x) i = f.eval ⟨x⟩ := by
  set points := values.map Prod.fst with hp
  have hcard : points.toFinset.card = values.length := by
    rw [List.toFinset_card_of_nodup hnd, hp, List.length_map]
  have hinj : Set.InjOn Element.mk (points.toFinset : Set UInt8) :=
    fun a _ b _ h => congrArg Element.byte h
  have hfi : f = Lagrange.interpolate points.toFinset Element.mk fun p => f.eval ⟨p⟩ :=
    Lagrange.eq_interpolate hinj (by rwa [hcard])
  calc symbol (interpolate width values x) i
      = (values.map fun v => (⟨weight points v.1 x⟩ : Element) * symbol v.2 i).sum :=
        (interpolate_eq_sum hw x).2 i hi
    _ = (points.map fun p => (⟨weight points p x⟩ : Element) * f.eval ⟨p⟩).sum := by
        rw [hp, List.map_map]
        congr 1
        exact List.map_congr_left fun v hv => by simp [hf v hv]
    _ = ∑ p ∈ points.toFinset, f.eval ⟨p⟩ * (Lagrange.basis points.toFinset Element.mk p).eval ⟨x⟩ := by
        rw [List.sum_toFinset _ hnd]
        congr 1
        exact List.map_congr_left fun p _ => by rw [weight_eq_eval_basis hnd, mul_comm]
    _ = f.eval ⟨x⟩ := by
        conv_rhs => rw [hfi, Lagrange.interpolate_apply, eval_finsetSum]
        simp

/-! ### Shards at their points -/

theorem point_injOn : Set.InjOn point {p | p < 256} := by
  intro a ha b hb h
  have := congrArg UInt8.toNat h
  simp only [Set.mem_ofPred_eq] at ha hb
  simpa [point, Nat.mod_eq_of_lt ha, Nat.mod_eq_of_lt hb] using this

theorem nodup_points {n : ℕ} (hn : n ≤ 256) : ((List.range n).map point).Nodup :=
  List.nodup_range.map_on fun _ ha _ hb h =>
    point_injOn (lt_of_lt_of_le (List.mem_range.1 ha) hn) (lt_of_lt_of_le (List.mem_range.1 hb) hn) h

theorem map_fst_stand (k : ℕ) (shards : List Bytes) :
    (stand k shards).map Prod.fst = (List.range' k shards.length).map point := by
  induction shards generalizing k with
  | nil => rfl
  | cons s rest ih => simp [stand, ih, List.range'_succ]

theorem mem_stand {k : ℕ} {shards : List Bytes} {v : UInt8 × Bytes} (hv : v ∈ stand k shards) :
    ∃ i < shards.length, v = (point (k + i), shards.getD i []) := by
  induction shards generalizing k with
  | nil => simp [stand] at hv
  | cons s rest ih =>
    rcases List.mem_cons.1 hv with rfl | hv
    · exact ⟨0, by simp, rfl⟩
    · obtain ⟨i, hi, rfl⟩ := ih hv
      exact ⟨i + 1, by simpa using hi, by rw [List.getD_cons_succ, add_right_comm, add_assoc]⟩

theorem length_stand (k : ℕ) (shards : List Bytes) : (stand k shards).length = shards.length := by
  have := congrArg List.length (map_fst_stand k shards)
  simpa using this

theorem sublist_present (k : ℕ) (slots : List (Option Bytes)) :
    ((present k slots).map Prod.fst).Sublist ((List.range' k slots.length).map point) := by
  induction slots generalizing k with
  | nil => exact List.Sublist.refl _
  | cons slot rest ih =>
    rw [List.length_cons, List.range'_succ, List.map_cons]
    cases slot with
    | none => exact (ih (k + 1)).cons _
    | some s => exact (ih (k + 1)).cons_cons _

theorem mem_present {k : ℕ} {slots : List (Option Bytes)} {v : UInt8 × Bytes} (hv : v ∈ present k slots) :
    ∃ i < slots.length, slots.getD i none = some v.2 ∧ v.1 = point (k + i) := by
  induction slots generalizing k with
  | nil => simp [present] at hv
  | cons slot rest ih =>
    have hrest : v ∈ present (k + 1) rest →
        ∃ i < (slot :: rest).length, (slot :: rest).getD i none = some v.2 ∧ v.1 = point (k + i) := by
      intro h
      obtain ⟨i, hi, h1, h2⟩ := ih h
      exact ⟨i + 1, by simpa using hi, by simpa using h1, by rw [h2, add_right_comm, add_assoc]⟩
    cases slot with
    | none => exact hrest hv
    | some s =>
      rcases List.mem_cons.1 hv with rfl | hv
      · exact ⟨0, by simp, rfl, rfl⟩
      · exact hrest hv

theorem map_snd_present (k : ℕ) (slots : List (Option Bytes)) :
    (present k slots).map Prod.snd = slots.filterMap id := by
  induction slots generalizing k with
  | nil => rfl
  | cons slot rest ih => cases slot <;> simp [present, ih]

theorem missing_eq (k : ℕ) (slots : List (Option Bytes)) :
    missing k slots =
      ((List.range slots.length).filter fun i => slots.getD i none = none).map fun i => point (k + i) := by
  induction slots generalizing k with
  | nil => rfl
  | cons slot rest ih =>
    rw [List.length_cons, List.range_succ_eq_map]
    cases slot <;> simp [missing, ih, List.filter_map, Function.comp_def, add_assoc, add_comm 1]

theorem length_missing (k : ℕ) (slots : List (Option Bytes)) :
    (missing k slots).length = slots.countP Option.isNone := by
  induction slots generalizing k with
  | nil => rfl
  | cons slot rest ih => cases slot <;> simp [missing, ih]

/-- The code gives one shard for each data slot that is empty. -/
theorem length_restore {g : Geometry} {slots : List (Option Bytes)} {restored : List Bytes}
    (h : restore g slots = some restored) : restored.length = (slots.take g.data).countP Option.isNone := by
  simp only [restore] at h
  split at h
  · obtain ⟨width, -, rfl⟩ := Option.map_eq_some_iff.1 h
    rw [List.length_map, length_missing]
  · cases h

theorem commonLength?_eq {shards : List Bytes} {width : ℕ} (hne : shards ≠ [])
    (hw : ∀ s ∈ shards, s.length = width) (hpos : 0 < width) : commonLength? shards = some width := by
  cases shards with
  | nil => exact absurd rfl hne
  | cons s rest =>
    have hs := hw s (List.mem_cons_self ..)
    have hrest : rest.all (·.length = s.length) = true := by
      simp only [List.all_eq_true, decide_eq_true_eq]
      intro t ht
      rw [hs, hw t (List.mem_cons_of_mem _ ht)]
    rw [commonLength?, if_pos ⟨by omega, hrest⟩, hs]

/-- The code refuses no group of which enough shards of one positive length are there. -/
theorem restore_ne_none {g : Geometry} (hg : g.Valid) {slots : List (Option Bytes)} {width : ℕ}
    (hpos : 0 < width) (hs : slots.length = g.total) (hw : ∀ s ∈ slots.filterMap id, s.length = width)
    (hen : g.data ≤ (slots.filterMap id).length) : restore g slots ≠ none := by
  have hd := hg.data_pos
  have hken : g.data ≤ (present 0 slots).length := by
    rw [← map_snd_present 0, List.length_map] at hen
    exact hen
  have hne : (present 0 slots).map Prod.snd ≠ [] := by
    rw [map_snd_present, ← List.length_pos_iff]
    omega
  rw [restore, if_pos ⟨hs, hken⟩, commonLength?_eq hne (by rwa [map_snd_present]) hpos, Option.map_some]
  exact Option.some_ne_none _

/-! ### Codewords -/

/-- The shard at a position of a group, from the data shards of the group. -/
def codeword (g : Geometry) (width : ℕ) (data : List Bytes) (position : ℕ) : Bytes :=
  if position < g.data then data.getD position [] else interpolate width (stand 0 data) (point position)

variable {g : Geometry} {data : List Bytes}

/-- The polynomial whose values the shards of a group have in a byte position. -/
noncomputable def polynomial (data : List Bytes) (i : ℕ) : Element[X] :=
  Lagrange.interpolate (Finset.range data.length) (fun p => ⟨point p⟩) fun p => symbol (data.getD p []) i

theorem node_injOn {n : ℕ} (hn : n ≤ 256) :
    Set.InjOn (fun p => (⟨point p⟩ : Element)) (Finset.range n : Set ℕ) := by
  intro a ha b hb h
  simp only [Finset.coe_range, Set.mem_Iio] at ha hb
  exact point_injOn (lt_of_lt_of_le ha hn) (lt_of_lt_of_le hb hn) (congrArg Element.byte h)

theorem degree_polynomial_lt (hn : data.length ≤ 256) (i : ℕ) : (polynomial data i).degree < data.length := by
  have h := Lagrange.degree_interpolate_lt (fun p => symbol (data.getD p []) i) (node_injOn hn)
  rwa [Finset.card_range] at h

theorem eval_polynomial (hn : data.length ≤ 256) (i : ℕ) {p : ℕ} (hp : p < data.length) :
    (polynomial data i).eval ⟨point p⟩ = symbol (data.getD p []) i :=
  Lagrange.eval_interpolate_at_node (fun p => symbol (data.getD p []) i) (node_injOn hn) (Finset.mem_range.2 hp)

section

variable {width : ℕ} (hlen : data.length = g.data) (hw : ∀ s ∈ data, s.length = width)

include hlen hw

theorem length_getD_data {p : ℕ} (hp : p < g.data) : (data.getD p []).length = width := by
  have hp' : p < data.length := by omega
  rw [List.getD_eq_getElem _ _ hp']
  exact hw _ (List.getElem_mem hp')

theorem length_stand_data {v : UInt8 × Bytes} (hv : v ∈ stand 0 data) : v.2.length = width := by
  obtain ⟨i, hi, rfl⟩ := mem_stand hv
  exact length_getD_data hlen hw (by omega)

theorem length_codeword (p : ℕ) : (codeword g width data p).length = width := by
  unfold codeword
  split
  · rename_i hp
    exact length_getD_data hlen hw hp
  · exact length_interpolate (fun _ hv => length_stand_data hlen hw hv) _

/-- **All shards of a group are values of one polynomial**, in each byte position. -/
theorem symbol_codeword (hg : g.Valid) {i : ℕ} (hi : i < width) (p : ℕ) :
    symbol (codeword g width data p) i = (polynomial data i).eval ⟨point p⟩ := by
  have hn : data.length ≤ 256 := by
    have := hg.total_le
    rw [maxGroupSize] at this
    omega
  unfold codeword
  split
  · rw [eval_polynomial hn i (by omega)]
  · apply symbol_interpolate _ (fun _ hv => length_stand_data hlen hw hv) hi
    · rw [length_stand]; exact degree_polynomial_lt hn i
    · intro v hv
      obtain ⟨j, hj, rfl⟩ := mem_stand hv
      rw [zero_add, eval_polynomial hn i hj]
    · rw [map_fst_stand, ← List.range_eq_range']
      exact nodup_points hn

omit hlen hw in
/-- The code computes the parity shards of every group of shards that have one length. -/
theorem parity_eq {slots : List Bytes} (hg : g.Valid) (hpos : 0 < width) (hs : slots.length = g.total)
    (hslots : ∀ s ∈ slots, s.length = width) :
    parity g slots =
      some ((List.range g.parity).map fun k => codeword g width (slots.take g.data) (g.data + k)) := by
  have hne : slots ≠ [] := by
    intro h
    have ht := Geometry.total_pos hg
    rw [h, List.length_nil] at hs
    omega
  rw [parity, if_pos hs, commonLength?_eq hne hslots hpos, Option.map_some]
  congr 1
  apply List.map_congr_left
  intro k _
  rw [codeword, if_neg (by omega)]

/-- **Any `D` shards of a group give back its missing data shards**, in the order of their positions. -/
theorem restore_codeword (hg : g.Valid) (hpos : 0 < width) {slots : List (Option Bytes)}
    (hs : slots.length = g.total)
    (hslots : ∀ p s, slots.getD p none = some s → s = codeword g width data p)
    (hen : g.data ≤ (slots.filterMap id).length) :
    restore g slots =
      some (((List.range g.data).filter fun p => slots.getD p none = none).map fun p => data.getD p []) := by
  have htotal : g.total = g.data + g.parity := rfl
  have h256 := Geometry.total_le_256 hg
  have hd := hg.data_pos
  set known := present 0 slots with hk
  have hklen : known.length = (slots.filterMap id).length := by
    rw [← map_snd_present 0, List.length_map]
  have hkw : ∀ s ∈ known.map Prod.snd, s.length = width := by
    intro s h
    obtain ⟨v, hv, rfl⟩ := List.mem_map.1 h
    obtain ⟨p, -, hp, -⟩ := mem_present hv
    rw [hslots p v.2 hp, length_codeword hlen hw]
  have hne : known.map Prod.snd ≠ [] := by
    intro h
    have := congrArg List.length h
    rw [List.length_map, List.length_nil] at this
    omega
  have hken : g.data ≤ known.length := by omega
  rw [restore, if_pos ⟨hs, hken⟩, commonLength?_eq hne hkw hpos, Option.map_some, missing_eq, List.map_map]
  congr 1
  have hrange : (List.range (slots.take g.data).length).filter (fun p => (slots.take g.data).getD p none = none) =
      (List.range g.data).filter fun p => slots.getD p none = none := by
    rw [List.length_take, Nat.min_eq_left (by omega)]
    apply List.filter_congr
    intro p hp
    simp only [List.getD_eq_getElem?_getD, List.getElem?_take, List.mem_range.1 hp, if_true]
  rw [hrange]
  apply List.map_congr_left
  intro p hp
  have hp' := List.mem_range.1 (List.mem_filter.1 hp).1
  have hval : ∀ v ∈ known.take g.data, v.2.length = width := fun v hv =>
    hkw v.2 (List.mem_map_of_mem (List.mem_of_mem_take hv))
  -- the interpolation through the first `D` shards agrees with the missing one in every byte position
  apply ext_symbol
  · rw [Function.comp_apply, length_interpolate hval, length_getD_data hlen hw hp']
  intro i hi
  rw [Function.comp_apply, length_interpolate hval] at hi
  have hn : data.length ≤ 256 := by omega
  rw [Function.comp_apply, zero_add, symbol_interpolate _ hval hi (f := polynomial data i),
    eval_polynomial hn i (by omega)]
  · rw [List.length_take, Nat.min_eq_left (by omega), ← hlen]
    exact degree_polynomial_lt hn i
  · intro v hv
    obtain ⟨q, -, hq, hv1⟩ := mem_present (List.mem_of_mem_take hv)
    rw [hslots q v.2 hq, symbol_codeword hlen hw hg hi, hv1, zero_add]
  · have hsub := (List.take_sublist g.data known).map Prod.fst
    refine (hsub.trans (sublist_present 0 slots)).nodup ?_
    rw [← List.range_eq_range']
    exact nodup_points (by omega)

end

end PacketFec.Code
