import Mathlib
import PacketFec.Proofs.Completion
import PacketFec.Simulation

/-!
# The ledger of a simulated session

A source decides, before anything is computed, which payloads a session sends and which of its shards are lost.
The ledger writes this down packet by packet. What a session should come to is read off the ledger by counting:
a group gives its lost payloads back if at least `D` of its shards arrive.

* `Source.ledger`: what a source decides for a number of packets.
* `rescued`, `Arrives`: what a group gives back, and whether all its packets arrive.
* `Outcome.Exact`: **what a session comes to, as its ledger tells.**
* `sum_rescued_le`, `sum_parityBehind`: counting by groups.
* `arrived`, `map_filter_notMem_arrived`: the places of a group that arrive, and what stands at the others.
* `regained`, `subperm_regainedAt`: the payloads that a group gives back are among those it has lost.
-/

namespace PacketFec

open Finset

/-- What becomes of a packet of a session, and of the parity behind it. -/
structure Fate where
  /-- The payload. -/
  payload : Bytes
  /-- Whether the packet is lost. -/
  isLost : Bool
  /-- For each parity shard that the packet completes, whether it is lost. -/
  parity : List Bool

namespace Fate

/-- The framed body that goes on the wire. -/
def body (f : Fate) : Bytes := Frame.encode f.payload

/-- How many shards arrive, of the packet and the parity behind it. -/
def arrivals (f : Fate) : ℕ := (if f.isLost then 0 else 1) + f.parity.count false

end Fate

/-- How much parity goes behind packet number `i`: that of its group, where the packet completes the group. A group
is stale where its last packet is the first one of the session. -/
def Geometry.parityBehind (g : Geometry) (i : ℕ) : ℕ := if i % g.data + 1 = g.data ∧ 0 < i then g.parity else 0

namespace Source

variable {σ : Type} (src : Source σ) (g : Geometry)

/-- What a source decides for some shards, one after the other. -/
def losses : ℕ → σ → List Bool × σ
  | 0, x => ([], x)
  | m + 1, x => ((src.loses x).1 :: (losses m (src.loses x).2).1, (losses m (src.loses x).2).2)

/-- What a source decides for packet number `i`. -/
def fate (i : ℕ) (x : σ) : Fate × σ :=
  let drawn := src.payload x
  let data := src.loses drawn.2
  let parity := src.losses (g.parityBehind i) data.2
  (⟨drawn.1, data.1, parity.1⟩, parity.2)

/-- What a source decides for `n` packets from number `i` on. -/
def ledger : ℕ → ℕ → σ → List Fate
  | 0, _, _ => []
  | n + 1, i, x => (src.fate g i x).1 :: ledger n (i + 1) (src.fate g i x).2

theorem length_losses (m : ℕ) (x : σ) : (src.losses m x).1.length = m := by
  induction m generalizing x with
  | zero => rfl
  | succ m ih => rw [losses, List.length_cons, ih]

theorem length_ledger (n i : ℕ) (x : σ) : (src.ledger g n i x).length = n := by
  induction n generalizing i x with
  | zero => rfl
  | succ n ih => rw [ledger, List.length_cons, ih]

variable {src g}

/-- The draws for a packet, one after the other. -/
theorem draws_of_fate {i : ℕ} {x x' : σ} {f : Fate} (h : src.fate g i x = (f, x')) :
    ∃ x₁ x₂, src.payload x = (f.payload, x₁) ∧ src.loses x₁ = (f.isLost, x₂) ∧
      src.losses (g.parityBehind i) x₂ = (f.parity, x') := by
  cases h
  exact ⟨_, _, rfl, rfl, rfl⟩

/-- What holds of every payload of a source holds of those in a ledger. -/
theorem forall_mem_ledger {p : Bytes → Prop} (hp : ∀ x, p (src.payload x).1) {n i : ℕ} {x : σ} :
    ∀ f ∈ src.ledger g n i x, p f.payload := by
  induction n generalizing i x with
  | zero => nofun
  | succ n ih => simpa only [ledger, List.mem_cons, forall_eq_or_imp] using ⟨hp x, ih⟩

end Source

/-! ### What a session should come to -/

/-- The packets of a group. -/
def groupFates (g : Geometry) (ledger : List Fate) (k : ℕ) : List Fate := (ledger.drop (k * g.data)).take g.data

/-- How many shards of a group arrive. -/
def arrivals (group : List Fate) : ℕ := (group.map Fate.arrivals).sum

/-- How many payloads a group gives back: all that were lost, if at least `D` shards arrive. -/
def rescued (g : Geometry) (group : List Fate) : ℕ :=
  if g.data ≤ arrivals group then group.countP (·.isLost) else 0

/-- All `D` packets of a group arrive. -/
def Arrives (g : Geometry) (group : List Fate) : Prop := group.countP (!·.isLost) = g.data

instance (g : Geometry) (group : List Fate) : Decidable (Arrives g group) := by
  unfold Arrives; infer_instance

/-- **What a session comes to, as its ledger tells.** Groups are counted up to the one that is not complete. -/
structure Outcome.Exact (g : Geometry) (ledger : List Fate) (o : Outcome) : Prop where
  dataSent : o.tally.dataSent = ledger.length
  paritySent : o.tally.paritySent = g.parity * (ledger.length / g.data - if g.data = 1 then 1 else 0)
  dataLost : o.tally.dataLost = ledger.countP (·.isLost)
  parityLost : o.tally.parityLost = (ledger.map fun f => f.parity.count true).sum
  verified : o.tally.verified = ∑ k ∈ range (ledger.length / g.data + 1), rescued g (groupFates g ledger k)
  corrupted : o.tally.corrupted = 0
  unrecovered : o.tally.verified + o.unrecovered = o.tally.dataLost
  retunes : o.retunes = 0
  errors : o.counters.errors = 0
  recovered : o.counters.recovered.toNat = o.tally.verified
  fullShardSets : o.counters.fullShardSets.toNat =
    #{k ∈ range (ledger.length / g.data + 1) | Arrives g (groupFates g ledger k)}

/-! ### Counting by groups -/

section

variable {g : Geometry} {ledger : List Fate}

/-- The packets of the group that is not complete before packet number `i`. -/
def openFates (g : Geometry) (ledger : List Fate) (i : ℕ) : List Fate :=
  (groupFates g ledger (i / g.data)).take (i % g.data)

theorem length_openFates {i : ℕ} (hg : g.Valid) (hi : i ≤ ledger.length) :
    (openFates g ledger i).length = i % g.data := by
  have hmod := Nat.mod_lt i hg.data_pos
  have hdiv := Nat.div_add_mod' i g.data
  rw [openFates, groupFates, List.length_take, List.length_take, List.length_drop]
  omega

/-- A packet joins those before it that its group has. -/
theorem openFates_append {i : ℕ} {f : Fate} (hg : g.Valid) (hf : ledger[i]? = some f) :
    openFates g ledger i ++ [f] = (groupFates g ledger (i / g.data)).take (i % g.data + 1) := by
  have hmod := Nat.mod_lt i hg.data_pos
  have hget : (groupFates g ledger (i / g.data))[i % g.data]? = some f := by
    rw [groupFates, List.getElem?_take_of_lt hmod, List.getElem?_drop, Nat.div_add_mod', hf]
  rw [List.take_add_one, hget]
  rfl

/-- A packet that is not the last of its group joins the group that is not complete. -/
theorem openFates_succ_of_lt {i : ℕ} {f : Fate} (hg : g.Valid) (hf : ledger[i]? = some f)
    (hlt : i % g.data + 1 < g.data) : openFates g ledger (i + 1) = openFates g ledger i ++ [f] := by
  obtain ⟨hmod, hdiv⟩ := Geometry.mod_div_succ_of_lt hlt
  rw [openFates_append hg hf, openFates, hmod, hdiv]

/-- The last packet of a group completes it. -/
theorem openFates_append_of_eq {i : ℕ} {f : Fate} (hg : g.Valid) (hf : ledger[i]? = some f)
    (hlast : i % g.data + 1 = g.data) : openFates g ledger i ++ [f] = groupFates g ledger (i / g.data) := by
  rw [openFates_append hg hf, hlast, groupFates, List.take_take, min_self]

/-- Behind the last packet of a group no packet has joined the next one. -/
theorem openFates_succ_of_eq {i : ℕ} (hlast : i % g.data + 1 = g.data) : openFates g ledger (i + 1) = [] := by
  rw [openFates, (Geometry.mod_div_succ_of_eq hlast).1, List.take_zero]

/-- The group that is not complete at the end of a session is what the session ends with. -/
theorem openFates_length (hg : g.Valid) :
    openFates g ledger ledger.length = groupFates g ledger (ledger.length / g.data) := by
  have hmod := Nat.mod_lt ledger.length hg.data_pos
  have hdiv := Nat.div_add_mod' ledger.length g.data
  apply List.take_of_length_le
  rw [groupFates, List.length_take, List.length_drop]
  omega

theorem countP_isLost_add (group : List Fate) :
    group.countP (·.isLost) + group.countP (!·.isLost) = group.length := by
  rw [List.length_eq_countP_add_countP (·.isLost)]
  congr 2
  funext f
  cases f.isLost <;> rfl

/-- Of a group without parity only packets arrive. -/
theorem arrivals_of_bare {group : List Fate} (h : ∀ f ∈ group, f.parity = []) :
    arrivals group = group.countP (!·.isLost) := by
  induction group with
  | nil => rfl
  | cons f rest ih =>
    have hf := h f List.mem_cons_self
    have hrest := ih fun f' hf' => h f' (List.mem_cons_of_mem f hf')
    rw [arrivals] at hrest
    rw [arrivals, List.map_cons, List.sum_cons, hrest, List.countP_cons, Fate.arrivals, hf]
    cases f.isLost <;> simp [Nat.add_comm]

/-- Behind the last packet of a group its parity arrives as well. -/
theorem arrivals_concat {group : List Fate} (h : ∀ f ∈ group, f.parity = []) (f : Fate) :
    arrivals (group ++ [f]) = (group ++ [f]).countP (!·.isLost) + f.parity.count false := by
  have hgroup := arrivals_of_bare h
  rw [arrivals] at hgroup
  rw [arrivals, List.map_append, List.sum_append, hgroup, List.countP_append, List.map_singleton,
    List.sum_singleton, List.countP_singleton, Fate.arrivals]
  cases f.isLost <;> simp [Nat.add_assoc]

/-- A group that is not complete gives nothing back. -/
theorem rescued_of_bare {group : List Fate} (h : ∀ f ∈ group, f.parity = []) (hlt : group.length < g.data) :
    rescued g group = 0 ∧ ¬ Arrives g group := by
  have hcount := List.countP_le_length (p := fun f : Fate => !f.isLost) (l := group)
  refine ⟨?_, fun hall => ?_⟩
  · rw [rescued, arrivals_of_bare h, if_neg (by omega)]
  · rw [Arrives] at hall
    omega

/-- Groups of `D` packets have what the packets up to the last of them have. -/
theorem sum_countP_groupFates (p : Fate → Bool) (m : ℕ) :
    ∑ k ∈ range m, (groupFates g ledger k).countP p = (ledger.take (m * g.data)).countP p := by
  induction m with
  | zero => simp
  | succ m ih => rw [sum_range_succ, ih, Nat.succ_mul, List.take_add, List.countP_append, groupFates]

/-- No more is given back than was lost. -/
theorem sum_rescued_le (m : ℕ) : ∑ k ∈ range m, rescued g (groupFates g ledger k) ≤ ledger.countP (·.isLost) := by
  have hle : ∀ k ∈ range m, rescued g (groupFates g ledger k) ≤ (groupFates g ledger k).countP (·.isLost) := by
    intro k _
    unfold rescued
    split
    · exact le_rfl
    · exact Nat.zero_le _
  calc ∑ k ∈ range m, rescued g (groupFates g ledger k)
      ≤ ∑ k ∈ range m, (groupFates g ledger k).countP (·.isLost) := sum_le_sum hle
    _ = (ledger.take (m * g.data)).countP (·.isLost) := sum_countP_groupFates _ m
    _ ≤ ledger.countP (·.isLost) := (List.take_sublist _ _).countP_le

/-- The parity of a session is that of the groups it completes, but for a first group of one packet. -/
theorem sum_parityBehind (hg : g.Valid) (n : ℕ) :
    ∑ i ∈ range n, g.parityBehind i = g.parity * (n / g.data - if g.data = 1 then 1 else 0) := by
  have hd := hg.data_pos
  induction n with
  | zero => simp
  | succ n ih =>
    have hmod := Nat.mod_lt n hd
    rw [sum_range_succ, ih, Geometry.parityBehind]
    by_cases hlast : n % g.data + 1 = g.data
    · rw [(Geometry.mod_div_succ_of_eq hlast).2]
      by_cases hone : g.data = 1
      · rw [if_pos hone, hone, Nat.div_one, Nat.mod_one]
        rcases Nat.eq_zero_or_pos n with rfl | hpos
        · simp
        · rw [if_pos ⟨rfl, hpos⟩, Nat.add_sub_cancel, ← Nat.mul_succ, Nat.succ_eq_add_one, Nat.sub_add_cancel hpos]
      · have hpos : 0 < n := by
          rcases Nat.eq_zero_or_pos n with rfl | hpos
          · rw [Nat.zero_mod] at hlast
            omega
          · exact hpos
        rw [if_neg hone, if_pos ⟨hlast, hpos⟩, Nat.sub_zero, Nat.sub_zero, Nat.mul_succ]
    · rw [(Geometry.mod_div_succ_of_lt (by omega)).2,
        if_neg fun h : n % g.data + 1 = g.data ∧ 0 < n => hlast h.1, Nat.add_zero]

end

/-! ### The places that arrive -/

/-- The places of a group whose packets arrive. -/
def arrived (group : List Fate) : Finset ℕ := {p ∈ range group.length | group[p]?.any (!·.isLost)}

@[simp] theorem arrived_nil : arrived [] = ∅ := rfl

theorem lt_of_mem_arrived {group : List Fate} {p : ℕ} (hp : p ∈ arrived group) : p < group.length :=
  mem_range.1 (mem_filter.1 hp).1

theorem arrived_concat (group : List Fate) (f : Fate) :
    arrived (group ++ [f]) = if f.isLost then arrived group else insert group.length (arrived group) := by
  have hbefore : {p ∈ range group.length | (group ++ [f])[p]?.any (!·.isLost)} = arrived group := by
    apply filter_congr
    intro p hp
    rw [List.getElem?_append_left (mem_range.1 hp)]
  rw [arrived, List.length_append, List.length_singleton, range_add_one, filter_insert,
    List.getElem?_concat_length, hbefore]
  cases hf : f.isLost <;> simp [hf]

theorem card_arrived (group : List Fate) : #(arrived group) = group.countP (!·.isLost) := by
  induction group using List.reverseRecOn with
  | nil => rfl
  | append_singleton group f ih =>
    rw [arrived_concat, List.countP_append, List.countP_singleton]
    have hnew : group.length ∉ arrived group := fun h => absurd (lt_of_mem_arrived h) (lt_irrefl _)
    cases hf : f.isLost
    · simp [card_insert_of_notMem hnew, ih]
    · simp [ih]

/-- What stands at the places that do not arrive is what is lost. -/
theorem map_filter_notMem_arrived {α : Type} (group : List Fate) (what : Fate → α) (default : α) :
    ((List.range group.length).filter (· ∉ arrived group)).map (fun p => (group.map what).getD p default) =
      (group.filter (·.isLost)).map what := by
  induction group using List.reverseRecOn with
  | nil => rfl
  | append_singleton group f ih =>
    have hbefore : ∀ p ∈ List.range group.length,
        (p ∈ arrived (group ++ [f]) ↔ p ∈ arrived group) := by
      intro p hp
      rw [arrived_concat]
      have hne : p ≠ group.length := (List.mem_range.1 hp).ne
      split <;> simp [hne]
    have hlast : group.length ∈ arrived (group ++ [f]) ↔ f.isLost = false := by
      rw [arrived_concat]
      cases f.isLost
      · simp
      · simpa using fun h => absurd (lt_of_mem_arrived h) (lt_irrefl _)
    have hprefix : ∀ p ∈ (List.range group.length).filter (· ∉ arrived group),
        ((group ++ [f]).map what).getD p default = (group.map what).getD p default := by
      intro p hp
      have hlt := List.mem_range.1 (List.mem_filter.1 hp).1
      rw [List.map_append, List.getD_append _ _ _ _ (by rw [List.length_map]; exact hlt)]
    rw [List.length_append, List.length_singleton, List.range_succ, List.filter_append, List.map_append,
      List.filter_congr (q := fun p => decide (p ∉ arrived group)) (by simpa using hbefore),
      List.map_congr_left hprefix, ih, List.filter_append, List.map_append]
    cases hf : f.isLost <;> simp [hlast, hf]

/-! ### The payloads that come back -/

/-- The payloads that a group gives back. -/
def regained (g : Geometry) (group : List Fate) : List Bytes :=
  if g.data ≤ arrivals group then (group.filter (·.isLost)).map Fate.payload else []

theorem length_regained (g : Geometry) (group : List Fate) : (regained g group).length = rescued g group := by
  unfold regained rescued
  split
  · rw [List.length_map, List.countP_eq_length_filter]
  · rfl

theorem regained_sublist (g : Geometry) (group : List Fate) :
    (regained g group).Sublist ((group.filter (·.isLost)).map Fate.payload) := by
  unfold regained
  split
  · exact List.Sublist.refl _
  · exact List.nil_sublist _

/-- Of a complete group payloads come back if its parity makes up `D` places that arrive, and its packets alone do
not. -/
theorem regained_concat {g : Geometry} {group : List Fate} (hbare : ∀ f ∈ group, f.parity = []) {f : Fate}
    (hlen : (group ++ [f]).length = g.data) : regained g (group ++ [f]) =
      if #(arrived (group ++ [f])) < g.data ∧ g.data ≤ #(arrived (group ++ [f])) + f.parity.count false
      then ((group ++ [f]).filter (·.isLost)).map Fate.payload else [] := by
  have hcount := countP_isLost_add (group ++ [f])
  rw [regained, arrivals_concat hbare, card_arrived]
  by_cases hlt : (group ++ [f]).countP (!·.isLost) < g.data
  · simp only [hlt, true_and]
  · -- nothing is lost where all packets arrive
    have hnone : (group ++ [f]).filter (·.isLost) = [] := by
      rw [← List.length_eq_zero_iff, ← List.countP_eq_length_filter]
      omega
    rw [hnone, List.map_nil, ite_self, ite_self]

section

variable {g : Geometry} {ledger : List Fate} {i : ℕ} {f : Fate}

/-- A packet is the last of its group, or its group goes on. -/
theorem div_succ_cases (hg : g.Valid) (i : ℕ) :
    i % g.data + 1 = g.data ∧ (i + 1) / g.data = i / g.data + 1 ∨
      i % g.data + 1 < g.data ∧ (i + 1) / g.data = i / g.data := by
  rcases Nat.eq_or_lt_of_le (Nat.mod_lt i hg.data_pos) with hlast | hlt
  · exact .inl ⟨hlast, (Geometry.mod_div_succ_of_eq hlast).2⟩
  · exact .inr ⟨hlt, (Geometry.mod_div_succ_of_lt hlt).2⟩

/-- The payloads that come back with the parity behind a packet. -/
def regainedAt (g : Geometry) (ledger : List Fate) (i : ℕ) : List Bytes :=
  if i % g.data + 1 = g.data then regained g (groupFates g ledger (i / g.data)) else []

/-- Parity only goes behind the last packet of a group. -/
theorem bare_succ (hg : g.Valid) (hf : ledger[i]? = some f) (hlen : f.parity.length = g.parityBehind i)
    (hbare : ∀ f ∈ openFates g ledger i, f.parity = []) : ∀ f ∈ openFates g ledger (i + 1), f.parity = [] := by
  rcases div_succ_cases hg i with ⟨hlast, -⟩ | ⟨hlt, -⟩
  · rw [openFates_succ_of_eq hlast]
    nofun
  · have hnone : f.parity = [] := by
      rw [← List.length_eq_zero_iff, hlen, Geometry.parityBehind, if_neg fun h => hlt.ne h.1]
    rw [openFates_succ_of_lt hg hf hlt]
    simpa [or_imp, forall_and] using ⟨hbare, hnone⟩

/-- A packet that is lost is to be verified with those lost before it. -/
theorem subperm_concat {group : List Fate} {lost : List Bytes}
    (h : ((group.filter (·.isLost)).map Fate.payload).Subperm lost) (f : Fate) :
    (((group ++ [f]).filter (·.isLost)).map Fate.payload).Subperm
      (if f.isLost then f.payload :: lost else lost) := by
  rw [List.filter_append, List.map_append]
  cases hf : f.isLost with
  | true =>
    have hsingle : [f].filter (·.isLost) = [f] := List.filter_eq_self.2 (by simpa using hf)
    rw [hsingle, if_pos rfl]
    exact (List.perm_append_singleton _ _).subperm.trans ((List.subperm_cons _).2 h)
  | false =>
    have hnone : [f].filter (·.isLost) = [] := List.filter_eq_nil_iff.2 (by simpa using hf)
    rw [hnone, List.map_nil, List.append_nil]
    exact h

/-- As long as what was lost of a group is still to be verified, what comes back of it is verified, and what was
lost of the group that goes on is still to be verified then. -/
theorem subperm_regainedAt (hg : g.Valid) (hf : ledger[i]? = some f) {lost : List Bytes}
    (h : (((openFates g ledger i ++ [f]).filter (·.isLost)).map Fate.payload).Subperm lost) :
    (regainedAt g ledger i).Subperm lost ∧
      (((openFates g ledger (i + 1)).filter (·.isLost)).map Fate.payload).Subperm
        (lost.diff (regainedAt g ledger i)) := by
  unfold regainedAt
  rcases div_succ_cases hg i with ⟨hlast, -⟩ | ⟨hlt, -⟩
  · rw [openFates_append_of_eq hg hf hlast] at h
    rw [if_pos hlast, openFates_succ_of_eq hlast]
    exact ⟨(regained_sublist g _).subperm.trans h, List.nil_subperm⟩
  · rw [if_neg hlt.ne, openFates_succ_of_lt hg hf hlt]
    exact ⟨List.nil_subperm, h⟩

end

end PacketFec
