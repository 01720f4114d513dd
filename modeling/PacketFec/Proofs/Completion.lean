import Mathlib
import PacketFec.Proofs.EndToEnd
import PacketFec.Proofs.Tally

/-!
# What the deliveries of a stream add to the counters

A receiver that takes the deliveries of one stream drains a set exactly where a delivery completes a group. It
counts the group as complete then if no data shard is missing, and otherwise counts the data shards that it
rebuilds. The code never refuses a group of a stream, so no failure is counted.

* `Decoder.lostIn_eq`: the data shards that the counters take for lost are those not heard of.
* `Decoder.Counted`: what a delivery adds.
* `Decoder.decode_counted`: **one delivery, with its counters.**
-/

namespace PacketFec

namespace Decoder

variable {g : Geometry} {base : ℕ} {bodies : ℕ → List Bytes} {history : List WireShard} {w : WireShard}
  {d : Decoder}

/-- The data shards that the counters take for lost are those not heard of. -/
theorem lostIn_eq {slots : List (Option Bytes)} {places : Finset ℕ} {body : ℕ → Bytes}
    (hlen : g.data ≤ slots.length)
    (h : ∀ p, slots.getD p none = if p ∈ places then some (body p) else none) :
    lostIn g slots = ((List.range g.data).filter (· ∉ places)).length := by
  have htake : slots.take g.data =
      (List.range g.data).map fun p => if p ∈ places then some (body p) else none := by
    apply List.ext_getElem
    · simpa using hlen
    · intro p h1 h2
      rw [List.length_take] at h1
      rw [List.getElem_take, List.getElem_map, List.getElem_range, ← h p, List.getD_eq_getElem]
  rw [lostIn, htake, List.countP_map, List.countP_eq_length_filter]
  congr 1
  apply List.filter_congr
  intro p _
  by_cases hp : p ∈ places <;> simp [hp]

/-- What a delivery of a stream adds to the counters, if it gives something back. -/
structure Counted (g : Geometry) (history : List WireShard) (w : WireShard) (recovered : List Buffer)
    (n : Counter → ℕ) : Prop where
  errors : n .errors = 0
  recovered : n .recovered = recovered.length
  complete : n .fullShardSets = if Completes g history w ∧ lost g history w = [] then 1 else 0

/-- A delivery that completes no group is counted as parity at most. -/
theorem counted_of_not_completes (hc : ¬ Completes g history w) (shard : Shard) :
    Counted g history w [] (entering shard) := by
  refine ⟨entering_eq_zero shard (by decide), entering_eq_zero shard (by decide), ?_⟩
  rw [if_neg fun h => hc h.1, entering_eq_zero shard (by decide)]

/-- A delivery that completes a group counts the group, or what it gives back of it. -/
theorem counted_of_rebuilds {slots : List (Option Bytes)} {recovered : List Buffer} {m : Counter → ℕ}
    (hc : Completes g history w) (hlost : lostIn g slots = (lost g history w).length)
    (hrec : recovered.length = (lost g history w).length) (hm : Rebuilds g slots recovered m) (shard : Shard) :
    Counted g history w recovered (entering shard + m) := by
  have h1 := entering_eq_zero shard (k := .errors) (by decide)
  have h2 := entering_eq_zero shard (k := .recovered) (by decide)
  have h3 := entering_eq_zero shard (k := .fullShardSets) (by decide)
  cases hm with
  | complete hzero hnone hn =>
    have hnil : lost g history w = [] := List.length_eq_zero_iff.1 (hlost.symm.trans hzero)
    subst hn hnone
    exact ⟨by simp [h1], by simp [h2], by simp [h3, hc, hnil]⟩
  | restored hpos _ _ hn =>
    have hne : lost g history w ≠ [] := fun h => hpos (hlost.trans (List.length_eq_zero_iff.2 h))
    subst hn
    exact ⟨by simp [h1], by simp [h2], by simp [h3, hne]⟩
  | refused hpos hnone _ _ =>
    -- a group of a stream comes back, so the code cannot have refused it
    subst hnone
    exact absurd (hlost.trans hrec.symm) hpos

section

variable (hold : d.Holding g base bodies history) (hs : Stream g base bodies (history ++ [w]))

include hold hs

/-- A delivery that is settled adds what it completes. -/
theorem counted_of_settles (hle : ∀ v ∈ history, v.group ≤ w.group) {shared : Shared} {b : Buffer} {t : Decoded}
    (hset : d.Settles shared (w.shard g base) b t) {n : Counter → ℕ} (hn : d.Adds (w.shard g base) t.recovered n) :
    Counted g history w t.recovered n := by
  have hplace := (hs.genuine w (by simp)).place_lt
  have hpos := position_shard hs.valid hs.aligned hplace hold.geometry_eq
  have hrec := (holding_of_settles hold hs hle hset).2
  obtain ⟨-, -, -, hcompletes, hslots⟩ := settles_new hold hs hle hset
  rw [Adds, hold.geometry_eq, hpos] at hn
  rcases hn with ⟨hopen, hnil, rfl⟩ | ⟨hfull, m, hm, rfl⟩
  · rw [hnil]
    exact counted_of_not_completes (fun hc => absurd (hcompletes.2 hc) (Nat.not_le.2 hopen)) _
  · have hc := hcompletes.1 hfull
    have hsound := sound_setOf hold.sound (w.shard g base)
    rw [hold.geometry_eq] at hsound
    have hinsert : (bodiesIn (d.setOf (w.shard g base)).slots).set w.place
        (some ((w.shard g base).bytes.drop headerSize)) =
          bodiesIn ((d.setOf (w.shard g base)).insert w.place b).slots := by
      rw [bodiesIn, bodiesIn, ShardSet.insert, List.map_set, Option.map_some, hset.bytes_eq]
    rw [hinsert] at hm
    rw [if_pos hc] at hrec
    refine counted_of_rebuilds hc (lostIn_eq ?_ hslots) ?_ hm _
    · rw [bodiesIn, List.length_map, ShardSet.insert, List.length_set, hsound.length_eq]
      exact Nat.le_add_right _ _
    · simpa using congrArg List.length hrec

/-- **One delivery, with its counters.** It is taken without a fault, gives back what is missing where it
completes its group, and is counted by what it gives back. -/
theorem decode_counted (shared : Shared) :
    ∃ t n, d.decode shared w.bytes = .ok t ∧ t.decoder.Holding g base bodies (history ++ [w]) ∧
      t.recovered.map (·.bytes) = (if Completes g history w
        then (lost g history w).map fun p => (evened (bodies w.group)).getD p [] else []) ∧
      t.decoder.retunes = d.retunes ∧ shared.counters.Raised n t.shared.counters ∧
      Counted g history w t.recovered n := by
  have hgen := hs.genuine w (by simp)
  have hold' := holding_noted hold (w.shard g base)
  have hlong : headerSize ≤ (w.shard g base).bytes.length := (parse_eq_ok hgen.parse_eq).2.2
  obtain ⟨t, hdec, hnext, hrec⟩ := decode_holding hold hs shared
  have hreceive := hdec
  rw [decode_eq hold.sound.valid hgen.parse_eq, if_pos (fits_shard hold hs)] at hreceive
  rcases receive_cases hold'.sound shared hlong with ⟨heq, hdrop⟩ | ⟨hnot, b, t', heq, hset⟩
  · obtain rfl := Except.ok.inj (heq.symm.trans hreceive)
    have hc := (holding_of_dropped hold' hs hgen.place_lt hdrop).2
    refine ⟨_, 0, hdec, hnext, hrec, rfl, Counters.raised_refl _, rfl, rfl, ?_⟩
    rw [if_neg fun h => hc h.1]
    rfl
  · obtain rfl := Except.ok.inj (heq.symm.trans hreceive)
    obtain ⟨n, hadds, hraised⟩ := receive_raised hold'.sound.valid hset hnot heq
    exact ⟨t', n, hdec, hnext, hrec, by rw [hset.decoder_eq]; rfl, hraised,
      counted_of_settles hold' hs (le_of_not_behind hold' hs hnot) hset hadds⟩

end

end Decoder

end PacketFec
