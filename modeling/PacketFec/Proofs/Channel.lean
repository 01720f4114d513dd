import Mathlib
import PacketFec.Proofs.Ledger

/-!
# A session between two packets

A session hands the receiver the shards that its ledger lets through, group by group. Where a packet arrives, it
completes its group only if it is the last one and none is missing. Where parity arrives, it completes the group
as soon as `D` shards of it have arrived, and the lost payloads come back. Each of them is found among the lost
ones, which it is taken off.

* `Decoder.Behind`: a receiver behind some deliveries of a session, with what it has counted.
* `Simulation.sendData_eq`, `Simulation.sendParity_eq`: **a packet, and the parity behind it.**
* `Simulation.foldl_verify`: payloads that come back are verified.
-/

namespace PacketFec

open Finset

variable {g : Geometry} {ledger : List Fate} {history : List WireShard} {w : WireShard} {k : ℕ} {group : List Fate}

/-! ### The shards of a session -/

/-- The bodies of a group of a session. -/
def sentBodies (g : Geometry) (ledger : List Fate) (k : ℕ) : List Bytes := (groupFates g ledger k).map Fate.body

/-- A parity shard of a group of a session. -/
def parityShard (g : Geometry) (ledger : List Fate) (k j : ℕ) : WireShard :=
  ⟨k, g.data + j, wireShard g 0 (g.place k (g.data + j)) .parity (parityBody g (sentBodies g ledger k) (g.data + j))⟩

theorem length_sentBodies_le (g : Geometry) (ledger : List Fate) (k : ℕ) :
    (sentBodies g ledger k).length ≤ g.data := by
  rw [sentBodies, List.length_map, groupFates, List.length_take]
  exact min_le_left _ _

theorem width_sentBodies_pos (hg : g.Valid) (hfull : (sentBodies g ledger k).length = g.data) :
    0 < width (sentBodies g ledger k) := by
  have hd := hg.data_pos
  have hmem := List.getElem_mem (l := sentBodies g ledger k) (n := 0) (by omega)
  obtain ⟨f, -, hf⟩ := List.mem_map.1 hmem
  exact Encoder.width_pos_of_encode (hf ▸ hmem)

theorem genuine_packet {i : ℕ} {f : Fate} (hg : g.Valid) (hf : ledger[i]? = some f) :
    Genuine g 0 (sentBodies g ledger) ⟨i / g.data, i % g.data, wireShard g 0 (g.packetPlace i) .data f.body⟩ := by
  have hmod := Nat.mod_lt i hg.data_pos
  have htotal : g.total = g.data + g.parity := rfl
  have hget : (sentBodies g ledger (i / g.data))[i % g.data]? = some f.body := by
    rw [sentBodies, List.getElem?_map, groupFates, List.getElem?_take_of_lt hmod, List.getElem?_drop,
      Nat.div_add_mod', hf]
    rfl
  refine ⟨Nat.lt_of_lt_of_le hmod (by omega), ?_, .inl (List.getElem?_eq_some_iff.1 hget).1⟩
  simp only [if_pos hmod, shardBody, List.getD_eq_getElem?_getD, hget, Option.getD_some, Geometry.packetPlace]

theorem genuine_parityShard (hfull : (sentBodies g ledger k).length = g.data) {j : ℕ} (hj : j < g.parity) :
    Genuine g 0 (sentBodies g ledger) (parityShard g ledger k j) := by
  have hnot : ¬ (parityShard g ledger k j).place < g.data := Nat.not_lt.2 (Nat.le_add_right _ _)
  refine ⟨Nat.add_lt_add_left hj _, ?_, .inr hfull⟩
  rw [shardBody, if_neg hnot, if_neg hnot]
  rfl

/-! ### The receiver of a session -/

/-- A receiver behind some deliveries of a session, which has given back `given` payloads and counted `full` groups as
complete. -/
structure Decoder.Behind (d : Decoder) (counters : Counters) (g : Geometry) (ledger : List Fate)
    (history : List WireShard) (given full : ℕ) : Prop where
  holding : d.Holding g 0 (sentBodies g ledger) history
  stream : Stream g 0 (sentBodies g ledger) history
  retunes : d.retunes = 0
  counted : ∃ n, Counters.zero.Raised n counters ∧ n .errors = 0 ∧ n .recovered = given ∧ n .fullShardSets = full

/-- A shard of a session makes the stream longer. -/
theorem Stream.concat {base : ℕ} {bodies : ℕ → List Bytes} (hs : Stream g base bodies history)
    (hw : Genuine g base bodies w) (hnear : 2 * w.group < g.ring) : Stream g base bodies (history ++ [w]) :=
  { hs with
    genuine := by simpa [or_imp, forall_and] using ⟨hs.genuine, hw⟩
    near := by simpa [or_imp, forall_and] using ⟨hs.near, hnear⟩ }

/-! ### What has been heard of a session -/

/-- Nothing of a later group has been heard, and of a group the packets that arrive so far. -/
structure Opens (history : List WireShard) (k : ℕ) (group : List Fate) : Prop where
  le : ∀ v ∈ history, v.group ≤ k
  heard_eq : heard history k = arrived group

theorem opens_nil (h : ∀ v ∈ history, v.group < k) : Opens history k [] where
  le v hv := (h v hv).le
  heard_eq := by
    rw [arrived_nil, eq_empty_iff_forall_notMem]
    intro p hp
    obtain ⟨v, hv, hgroup, -⟩ := mem_heard.1 hp
    exact absurd hgroup (h v hv).ne

/-- What is missing where a group is completed is what was lost of it. -/
theorem map_lost (hlen : group.length = g.data)
    (hheard : ∀ p < g.data, p ∈ heard (history ++ [w]) w.group ↔ p ∈ arrived group) {α : Type} (what : Fate → α)
    (default : α) : (lost g history w).map (fun p => (group.map what).getD p default) =
      (group.filter (·.isLost)).map what := by
  rw [← map_filter_notMem_arrived group what default, lost, hlen]
  congr 1
  apply List.filter_congr
  intro p hp
  simp only [hheard p (List.mem_range.1 hp)]

theorem length_lost (hlen : group.length = g.data)
    (hheard : ∀ p < g.data, p ∈ heard (history ++ [w]) w.group ↔ p ∈ arrived group) :
    (lost g history w).length = group.countP (·.isLost) := by
  have h := congrArg List.length (map_lost hlen hheard Fate.isLost false)
  rwa [List.length_map, List.length_map, ← List.countP_eq_length_filter] at h

section

variable {f : Fate}

/-- A packet that is lost adds nothing to what has been heard. -/
theorem Opens.of_lost (h : Opens history k group) (hf : f.isLost = true) : Opens history k (group ++ [f]) where
  le := h.le
  heard_eq := by rw [h.heard_eq, arrived_concat, if_pos hf]

/-- A packet that arrives is heard at its place. -/
theorem Opens.of_arrives (h : Opens history k group) (hf : f.isLost = false) (shard : Bytes) :
    Opens (history ++ [⟨k, group.length, shard⟩]) k (group ++ [f]) where
  le := by simpa [or_imp, forall_and] using h.le
  heard_eq := by rw [heard_concat, if_pos rfl, h.heard_eq, arrived_concat, if_neg (by simp [hf])]

/-- A packet that arrives completes its group exactly where all packets of the group arrive. -/
theorem completes_packet_iff (h : Opens history k group) (hf : f.isLost = false) (shard : Bytes) :
    Completes g history ⟨k, group.length, shard⟩ ↔ Arrives g (group ++ [f]) := by
  have hnew : group.length ∉ arrived group := fun hmem => absurd (lt_of_mem_arrived hmem) (lt_irrefl _)
  rw [Arrives, ← card_arrived, arrived_concat, if_neg (by simp [hf]), card_insert_of_notMem hnew, Completes,
    h.heard_eq]
  exact ⟨fun hc => hc.2.2, fun hc => ⟨h.le, hnew, hc⟩⟩

/-- Nothing is missing where a packet completes its group. -/
theorem lost_packet_eq_nil (h : Opens history k group) (hlt : group.length < g.data) (hf : f.isLost = false)
    (hall : Arrives g (group ++ [f])) (shard : Bytes) : lost g history ⟨k, group.length, shard⟩ = [] := by
  have hcount := countP_isLost_add (group ++ [f])
  have hlen : (group ++ [f]).length = g.data := by
    rw [Arrives] at hall
    rw [List.length_append, List.length_singleton] at hcount ⊢
    omega
  have hlost := length_lost (w := ⟨k, group.length, shard⟩) hlen fun p _ => by rw [(h.of_arrives hf shard).heard_eq]
  rw [Arrives] at hall
  exact List.length_eq_zero_iff.1 (by omega)

end

/-- All packets of a group have been sent, and `j` parity shards behind them. -/
structure Closes (g : Geometry) (history : List WireShard) (k j : ℕ) (group : List Fate) : Prop where
  le : ∀ v ∈ history, v.group ≤ k
  length_eq : group.length = g.data
  fresh : ∀ p ∈ heard history k, p < g.data + j
  data : ∀ p < g.data, p ∈ heard history k ↔ p ∈ arrived group

theorem Opens.closes (h : Opens history k group) (hlen : group.length = g.data) : Closes g history k 0 group where
  le := h.le
  length_eq := hlen
  fresh p hp := by
    rw [h.heard_eq] at hp
    exact hlen ▸ lt_of_mem_arrived hp
  data p _ := by rw [h.heard_eq]

section

variable {j : ℕ}

/-- A parity shard that is lost adds nothing to what has been heard. -/
theorem Closes.of_lost (h : Closes g history k j group) : Closes g history k (j + 1) group :=
  { h with fresh := fun p hp => Nat.lt_succ_of_lt (h.fresh p hp) }

theorem heard_parity (ledger : List Fate) :
    heard (history ++ [parityShard g ledger k j]) k = insert (g.data + j) (heard history k) := by
  rw [heard_concat]
  exact if_pos rfl

theorem Closes.notMem_heard (h : Closes g history k j group) : g.data + j ∉ heard history k :=
  fun hmem => absurd (h.fresh _ hmem) (lt_irrefl _)

/-- A parity shard that arrives is heard at its place. -/
theorem Closes.of_arrives (h : Closes g history k j group) :
    Closes g (history ++ [parityShard g ledger k j]) k (j + 1) group where
  le := by simpa [or_imp, forall_and, parityShard] using h.le
  length_eq := h.length_eq
  fresh p hp := by
    rw [heard_parity, mem_insert] at hp
    rcases hp with rfl | hp
    · exact Nat.lt_succ_self _
    · exact Nat.lt_succ_of_lt (h.fresh p hp)
  data p hp := by
    rw [heard_parity, mem_insert, ← h.data p hp]
    exact or_iff_right (by omega)

/-- A parity shard that arrives completes its group exactly where one place is missing of `D`. -/
theorem Closes.completes_iff (h : Closes g history k j group) :
    Completes g history (parityShard g ledger k j) ↔ #(heard history k) + 1 = g.data :=
  ⟨fun hc => hc.2.2, fun hc => ⟨h.le, h.notMem_heard, hc⟩⟩

/-- Something is missing where a parity shard completes its group. -/
theorem Closes.lost_ne_nil (h : Closes g history k j group) (hlt : #(heard history k) < g.data) :
    lost g history (parityShard g ledger k j) ≠ [] := by
  have hsub : arrived group ⊆ heard history k := by
    intro p hp
    exact (h.data p (h.length_eq ▸ lt_of_mem_arrived hp)).2 hp
  have hcard := card_le_card hsub
  have hcount := countP_isLost_add group
  have hlost := length_lost (w := parityShard g ledger k j) h.length_eq h.of_arrives.data
  rw [card_arrived] at hcard
  rw [h.length_eq] at hcount
  intro hnil
  rw [hnil, List.length_nil] at hlost
  omega

end

namespace Simulation

variable {σ : Type} {src : Source σ} {s : Simulation σ} {given full : ℕ}

/-- A session in which nothing but the receiver, with what it shares, has gone on. -/
structure Keeps (s s' : Simulation σ) : Prop where
  source : s'.source = s.source
  sender : s'.sender = s.sender
  lost : s'.lost = s.lost
  tally : s'.tally = s.tally

/-- One delivery of a session. -/
theorem deliver_eq (h : s.receiver.Behind s.shared.counters g ledger history given full)
    (hw : Genuine g 0 (sentBodies g ledger) w) (hnear : 2 * w.group < g.ring) :
    ∃ s' back, s.deliver w.bytes = .ok (s', back) ∧ s.Keeps s' ∧
      s'.receiver.Behind s'.shared.counters g ledger (history ++ [w]) (given + back.length)
        (full + if Completes g history w ∧ PacketFec.lost g history w = [] then 1 else 0) ∧
      back.map (·.bytes) = if Completes g history w
        then (PacketFec.lost g history w).map fun p => (evened (sentBodies g ledger w.group)).getD p [] else [] := by
  have hs := h.stream.concat hw hnear
  obtain ⟨t, m, hdec, hold, hback, hretunes, hraised, hm⟩ := Decoder.decode_counted h.holding hs s.shared
  obtain ⟨n, hn, h1, h2, h3⟩ := h.counted
  have hdeliver : s.deliver w.bytes = .ok ({ s with receiver := t.decoder, shared := t.shared }, t.recovered) := by
    rw [deliver, hdec]
    rfl
  refine ⟨_, t.recovered, hdeliver, ⟨rfl, rfl, rfl, rfl⟩,
    ⟨hold, hs, hretunes.trans h.retunes, n + m, hn.trans hraised, ?_, ?_, ?_⟩, hback⟩
  · rw [Pi.add_apply, h1, hm.errors]
  · rw [Pi.add_apply, h2, hm.recovered]
  · rw [Pi.add_apply, h3, hm.complete]

/-! ### A packet -/

/-- **A packet.** It is lost, or it arrives and gives nothing back. The group is counted as complete where this is
the last of its packets and none is lost. -/
theorem sendData_eq (h : s.receiver.Behind s.shared.counters g ledger history given full)
    (hopens : Opens history k group) {shard : Bytes}
    (hw : Genuine g 0 (sentBodies g ledger) ⟨k, group.length, shard⟩) (hnear : 2 * k < g.ring)
    (hlt : group.length < g.data) {f : Fate} (hf : (src.loses s.source).1 = f.isLost) :
    ∃ s' history', sendData src s f.payload shard = .ok (s', []) ∧ s'.source = (src.loses s.source).2 ∧
      s'.sender = s.sender ∧ s'.lost = (if f.isLost then f.payload :: s.lost else s.lost) ∧
      s'.tally = { s.tally with
        dataSent := s.tally.dataSent + 1
        dataLost := s.tally.dataLost + if f.isLost then 1 else 0 } ∧
      s'.receiver.Behind s'.shared.counters g ledger history' given
        (full + if Arrives g (group ++ [f]) then 1 else 0) ∧ Opens history' k (group ++ [f]) := by
  cases hlost : f.isLost with
  | true =>
    have harrives : ¬ Arrives g (group ++ [f]) := by
      have hcount := countP_isLost_add group
      rw [Arrives, List.countP_append, List.countP_singleton, hlost]
      simp only [Bool.not_true, Bool.false_eq_true, if_false]
      omega
    have hsend : sendData src s f.payload shard = .ok ({ s with
        source := (src.loses s.source).2
        lost := f.payload :: s.lost
        tally := { s.tally with
          dataSent := s.tally.dataSent + 1
          dataLost := s.tally.dataLost + 1 } }, []) := by
      rw [sendData]
      simp only [hf, hlost, if_true]
    exact ⟨_, history, hsend, rfl, rfl, rfl, rfl, by rwa [if_neg harrives], hopens.of_lost hlost⟩
  | false =>
    have hcompletes := completes_packet_iff (g := g) hopens hlost shard
    have hnone : Arrives g (group ++ [f]) → PacketFec.lost g history ⟨k, group.length, shard⟩ = [] := fun hall =>
      lost_packet_eq_nil hopens hlt hlost hall shard
    obtain ⟨s', back, hdeliver, hkeeps, hbehind, hback⟩ := deliver_eq
      (s := { s with
        source := (src.loses s.source).2
        tally := { s.tally with dataSent := s.tally.dataSent + 1 } }) h hw hnear
    have hempty : back = [] := by
      rw [← List.map_eq_nil_iff, hback]
      split
      · rename_i hc
        rw [hnone (hcompletes.1 hc), List.map_nil]
      · rfl
    subst hempty
    refine ⟨s', history ++ [⟨k, group.length, shard⟩], ?_, hkeeps.source, hkeeps.sender, hkeeps.lost, hkeeps.tally, ?_,
      hopens.of_arrives hlost shard⟩
    · rw [sendData]
      simp only [hf, hlost, Bool.false_eq_true, if_false]
      exact hdeliver
    · simpa only [hcompletes, and_iff_left_of_imp hnone, List.length_nil, Nat.add_zero] using hbehind

/-! ### The parity behind a packet -/

/-- The lost bodies of a group, filled up to the longest one. -/
def lostBodies (g : Geometry) (ledger : List Fate) (k : ℕ) : List Bytes :=
  ((groupFates g ledger k).filter (·.isLost)).map fun f => f.body.resize (width (sentBodies g ledger k)) 0

/-- One parity shard that arrives. -/
theorem deliver_parity (hnear : 2 * k < g.ring) {j : ℕ} (hj : j < g.parity)
    (h : s.receiver.Behind s.shared.counters g ledger history given full)
    (hcloses : Closes g history k j (groupFates g ledger k)) :
    ∃ s' back, s.deliver (parityShard g ledger k j).bytes = .ok (s', back) ∧ s.Keeps s' ∧
      s'.receiver.Behind s'.shared.counters g ledger (history ++ [parityShard g ledger k j]) (given + back.length)
        full ∧
      back.map (·.bytes) = if #(heard history k) + 1 = g.data then lostBodies g ledger k else [] := by
  have hfull : (sentBodies g ledger k).length = g.data := by rw [sentBodies, List.length_map, hcloses.length_eq]
  obtain ⟨s', back, hdeliver, hkeeps, hbehind, hback⟩ := deliver_eq h (genuine_parityShard hfull hj) hnear
  have hnot : ¬ (Completes g history (parityShard g ledger k j) ∧
      PacketFec.lost g history (parityShard g ledger k j) = []) := by
    rintro ⟨hc, hnil⟩
    exact hcloses.lost_ne_nil (Nat.lt_of_succ_le (hcloses.completes_iff.1 hc).le) hnil
  rw [if_neg hnot] at hbehind
  refine ⟨s', back, hdeliver, hkeeps, hbehind, hback.trans ?_⟩
  simp only [hcloses.completes_iff]
  congr 1
  have hmap := map_lost (w := parityShard g ledger k j) hcloses.length_eq hcloses.of_arrives.data
    (fun f => f.body.resize (width (sentBodies g ledger k)) 0) []
  rw [lostBodies, ← hmap, evened, sentBodies, List.map_map]
  rfl

/-- **The parity of a group.** The lost payloads come back if `D` places of the group are heard of through it, and
are not before. -/
theorem sendParity_eq {x : σ} (hx : s.source = x) (hnear : 2 * k < g.ring) {m j : ℕ} (hm : j + m ≤ g.parity)
    (h : s.receiver.Behind s.shared.counters g ledger history given full)
    (hcloses : Closes g history k j (groupFates g ledger k)) :
    ∃ s' history' back,
      sendParity src s ((List.range' j m).map fun j => (parityShard g ledger k j).bytes) = .ok (s', back) ∧
      s'.source = (src.losses m x).2 ∧ s'.sender = s.sender ∧ s'.lost = s.lost ∧
      s'.tally = { s.tally with
        paritySent := s.tally.paritySent + m
        parityLost := s.tally.parityLost + (src.losses m x).1.count true } ∧
      s'.receiver.Behind s'.shared.counters g ledger history' (given + back.length) full ∧
      (∀ v ∈ history', v.group ≤ k) ∧
      back.map (·.bytes) = if #(heard history k) < g.data ∧
        g.data ≤ #(heard history k) + (src.losses m x).1.count false then lostBodies g ledger k else [] := by
  -- along the parity shards: a lost one changes nothing, one that arrives is one more place heard of
  induction m generalizing j s history given x with
  | zero =>
    refine ⟨s, history, [], rfl, hx, rfl, rfl, rfl, h, hcloses.le, ?_⟩
    rw [Source.losses, if_neg (by simp), List.map_nil]
  | succ m ih =>
    rw [List.range'_succ, List.map_cons, sendParity, Source.losses, hx]
    cases hlost : (src.loses x).1 with
    | true =>
      obtain ⟨s', history', back, hsend, hsource, hsender, hlost', htally, hbehind, hle, hback⟩ :=
        ih (s := { s with
          source := (src.loses x).2
          tally := { s.tally with
            paritySent := s.tally.paritySent + 1
            parityLost := s.tally.parityLost + 1 } }) rfl (by omega) h hcloses.of_lost
      refine ⟨s', history', back, ?_, hsource, hsender, hlost', ?_, hbehind, hle, ?_⟩
      · simp only [hlost, if_true, hsend, pure_bind, Checked.ok_bind, List.nil_append]
        rfl
      · rw [htally, List.count_cons_self]
        simp only [Nat.add_assoc, Nat.add_comm 1]
      · simpa using hback
    | false =>
      obtain ⟨s₁, first, hdeliver, hkeeps, hbehind₁, hfirst⟩ := deliver_parity hnear (by omega)
        (s := { s with
          source := (src.loses x).2
          tally := { s.tally with paritySent := s.tally.paritySent + 1 } }) h hcloses
      obtain ⟨s', history', more, hsend, hsource, hsender, hlost', htally, hbehind, hle, hmore⟩ :=
        ih (x := (src.loses x).2) hkeeps.source (by omega) hbehind₁ hcloses.of_arrives
      refine ⟨s', history', first ++ more, ?_, hsource, hsender.trans hkeeps.sender, hlost'.trans hkeeps.lost, ?_, ?_,
        hle, ?_⟩
      · simp only [hlost, Bool.false_eq_true, if_false, hdeliver, hsend, Checked.ok_bind]
        rfl
      · rw [htally, hkeeps.tally, List.count_cons_of_ne (by decide)]
        simp only [Nat.add_assoc, Nat.add_comm 1]
      · rw [List.length_append, ← Nat.add_assoc]
        exact hbehind
      · rw [heard_parity, card_insert_of_notMem hcloses.notMem_heard] at hmore
        rw [List.map_append, hfirst, hmore, List.count_cons_self]
        -- the group is completed by this shard, by a later one, or it was complete before
        rcases lt_trichotomy (#(heard history k) + 1) g.data with hlt | heq | hgt
        · rw [if_neg hlt.ne, List.nil_append]
          exact if_congr (by omega) rfl rfl
        · rw [if_pos heq, if_neg (by omega), if_pos (by omega), List.append_nil]
        · rw [if_neg hgt.ne', if_neg (by omega), if_neg (by omega), List.append_nil]

/-! ### What comes back -/

/-- The lost payloads of a group are read off what comes back of it. -/
theorem map_payload?_lostBodies (hshort : ∀ f ∈ ledger, f.body.length < sizePrefixLimit) (k : ℕ) :
    (lostBodies g ledger k).map Frame.payload? =
      ((groupFates g ledger k).filter (·.isLost)).map fun f => some f.payload := by
  rw [lostBodies, List.map_map]
  apply List.map_congr_left
  intro f hf
  have hgroup : f ∈ groupFates g ledger k := List.mem_of_mem_filter hf
  have hmem : f.body ∈ sentBodies g ledger k := List.mem_map_of_mem hgroup
  exact Frame.payload?_resize (hshort f (List.mem_of_mem_drop (List.mem_of_mem_take hgroup))) (length_le_width hmem)

/-- Payloads that come back are verified, as long as each of them was lost as often as it comes back. -/
theorem foldl_verify {back : List Buffer} {payloads : List Bytes}
    (hread : (back.map (·.bytes)).map Frame.payload? = payloads.map some) (hsub : payloads.Subperm s.lost) :
    back.foldl (fun s b => s.verify b.bytes) s = { s with
      lost := s.lost.diff payloads
      tally := { s.tally with verified := s.tally.verified + payloads.length } } := by
  induction payloads generalizing back s with
  | nil =>
    have hnil : back = [] := by simpa using hread
    subst hnil
    rfl
  | cons payload rest ih =>
    cases back with
    | nil => cases hread
    | cons b back =>
      obtain ⟨hpayload, hrest⟩ := List.cons.inj hread
      have hmem : payload ∈ s.lost := hsub.subset List.mem_cons_self
      have herase : rest.Subperm (s.lost.erase payload) := by
        have h := hsub.erase payload
        rwa [List.erase_cons_head] at h
      have hverify : s.verify b.bytes = { s with
          lost := s.lost.erase payload
          tally := { s.tally with verified := s.tally.verified + 1 } } := by
        rw [verify, hpayload]
        simp only [if_pos hmem]
      rw [List.foldl_cons, hverify, ih hrest herase, List.diff_cons, List.length_cons, Nat.add_assoc,
        Nat.add_comm 1]

end Simulation

end PacketFec
