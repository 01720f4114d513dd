import Mathlib
import PacketFec.Proofs.Channel
import PacketFec.Proofs.Validation

/-!
# Simulated sessions are exact

A session goes packet by packet: the sender seals a payload, the source decides which of its shards arrive, and
what the receiver gives back is compared with what was lost. Between two packets all that a session has counted is
what its ledger says so far, and the lost payloads of the group that is not complete are still among the lost ones.

* `Simulation.Underway`: **the state of a session between two packets.**
* `Simulation.step_underway`, `Simulation.steps_underway`: one packet, and the rest of a session.
* `Simulation.run_exact`: **whatever the source decides, a session comes to what its ledger tells.**
-/

namespace PacketFec

open Finset

variable {g : Geometry} {ledger : List Fate} {history : List WireShard} {i : ℕ} {f : Fate}

/-! ### What a ledger says up to a packet -/

/-- What becomes of the shards of the first `i` packets. -/
def tallyAt (g : Geometry) (ledger : List Fate) (i : ℕ) : Tally where
  dataSent := i
  paritySent := ∑ j ∈ range i, g.parityBehind j
  dataLost := (ledger.take i).countP (·.isLost)
  parityLost := ((ledger.take i).map fun f => f.parity.count true).sum
  verified := ∑ k ∈ range (i / g.data), rescued g (groupFates g ledger k)
  corrupted := 0

/-- How many groups all of whose packets arrive have been completed by the first `i` packets. -/
def fullAt (g : Geometry) (ledger : List Fate) (i : ℕ) : ℕ :=
  #{k ∈ range (i / g.data) | Arrives g (groupFates g ledger k)}

theorem tallyAt_succ (hg : g.Valid) (hf : ledger[i]? = some f) : tallyAt g ledger (i + 1) = {
    dataSent := (tallyAt g ledger i).dataSent + 1
    paritySent := (tallyAt g ledger i).paritySent + g.parityBehind i
    dataLost := (tallyAt g ledger i).dataLost + if f.isLost then 1 else 0
    parityLost := (tallyAt g ledger i).parityLost + f.parity.count true
    verified := (tallyAt g ledger i).verified + (regainedAt g ledger i).length
    corrupted := 0 } := by
  have htake : ledger.take (i + 1) = ledger.take i ++ [f] := by rw [List.take_add_one, hf]; rfl
  have hverified : ∑ k ∈ range ((i + 1) / g.data), rescued g (groupFates g ledger k) =
      ∑ k ∈ range (i / g.data), rescued g (groupFates g ledger k) + (regainedAt g ledger i).length := by
    rcases div_succ_cases hg i with ⟨hlast, hdiv⟩ | ⟨hlt, hdiv⟩
    · rw [hdiv, sum_range_succ, regainedAt, if_pos hlast, length_regained]
    · rw [hdiv, regainedAt, if_neg hlt.ne, List.length_nil, Nat.add_zero]
  simp only [tallyAt, htake, hverified, sum_range_succ, List.countP_append, List.countP_singleton, List.map_append,
    List.sum_append, List.map_singleton, List.sum_singleton]

/-- A group is counted with its last packet. -/
theorem fullAt_succ (hg : g.Valid) (hi : i < ledger.length) (hf : ledger[i]? = some f) :
    fullAt g ledger (i + 1) = fullAt g ledger i + if Arrives g (openFates g ledger i ++ [f]) then 1 else 0 := by
  have hlen := length_openFates hg hi.le
  rcases div_succ_cases hg i with ⟨hlast, hdiv⟩ | ⟨hlt, hdiv⟩
  · rw [openFates_append_of_eq hg hf hlast, fullAt, fullAt, hdiv, range_add_one, filter_insert]
    split
    · rw [card_insert_of_notMem (by simp)]
    · rfl
  · have hnot : ¬ Arrives g (openFates g ledger i ++ [f]) := by
      have hcount := List.countP_le_length (p := fun f : Fate => !f.isLost) (l := openFates g ledger i ++ [f])
      rw [List.length_append, List.length_singleton] at hcount
      rw [Arrives]
      omega
    rw [if_neg hnot, fullAt, fullAt, hdiv, Nat.add_zero]

/-- The group that is not complete at the end gives nothing back, and not all of its packets arrive. -/
theorem at_length (hg : g.Valid) (hbare : ∀ f ∈ openFates g ledger ledger.length, f.parity = []) :
    (tallyAt g ledger ledger.length).verified =
        ∑ k ∈ range (ledger.length / g.data + 1), rescued g (groupFates g ledger k) ∧
      fullAt g ledger ledger.length =
        #{k ∈ range (ledger.length / g.data + 1) | Arrives g (groupFates g ledger k)} := by
  have hlt : (openFates g ledger ledger.length).length < g.data := by
    rw [length_openFates hg le_rfl]
    exact Nat.mod_lt _ hg.data_pos
  obtain ⟨hnone, hnot⟩ := rescued_of_bare hbare hlt
  rw [openFates_length hg] at hnone hnot
  refine ⟨?_, ?_⟩
  · rw [sum_range_succ, hnone, Nat.add_zero, tallyAt]
  · rw [fullAt, range_add_one, filter_insert, if_neg hnot]

namespace Simulation

variable {σ : Type} {src : Source σ} {s : Simulation σ}

/-! ### The sender of a session -/

/-- The time of the packet before number `i`. -/
def latestAt (i : ℕ) : Option ℕ := if i = 0 then none else some (interval * ((i - 1) % seqidLimit))

theorem continues_iff {e : Encoder} (h : e.latest = latestAt i) :
    e.continues staleness (interval * (i % seqidLimit)) = true ↔ 0 < i := by
  unfold Encoder.continues
  rw [h, latestAt]
  by_cases hzero : i = 0
  · rw [if_pos hzero, hzero]
    simp
  · have hnow : interval * (i % seqidLimit) - interval * ((i - 1) % seqidLimit) < staleness := by
      simp only [interval, staleness, seqidLimit]
      omega
    rw [if_neg hzero]
    simpa [hnow] using Nat.pos_of_ne_zero hzero

/-- A sender seals every packet of a session whose payload fits. -/
theorem encode_fitting {e : Encoder} {payload : Bytes} {bodies : List Bytes}
    (hlong : payload.length + framingSize ≤ mtuLimit) (htracks : e.Tracks g 0 mtuLimit 0 i bodies)
    (counters : Counters) (now : ℕ) :
    ∃ done, e.encode counters (Bytes.zeros framingSize ++ payload) staleness now = .ok done ∧
      e.Seals g 0 mtuLimit 0 i bodies counters (Bytes.zeros framingSize ++ payload) staleness now done := by
  have hlength : (Bytes.zeros framingSize ++ payload).length = framingSize + payload.length := by
    rw [List.length_append, Bytes.length_zeros]
  have htakes : Encoder.Takes 0 mtuLimit (Bytes.zeros framingSize ++ payload) := by
    refine ⟨by omega, by omega, ?_⟩
    simp only [framingSize, headerSize, sizePrefixLength, mtuLimit, sizePrefixLimit] at *
    omega
  obtain ⟨hscreen, -⟩ := (Encoder.screen_cases htracks.toFramed _).resolve_right fun h => h.2 htakes
  exact Encoder.encode_tracks htracks hscreen htakes counters staleness now

/-- The sender seals packet number `i`, and its parity where it completes a group. -/
theorem encode_packet {e : Encoder} (hf : ledger[i]? = some f)
    (hlong : f.payload.length + framingSize ≤ mtuLimit)
    (htracks : e.Tracks g 0 mtuLimit 0 i ((openFates g ledger i).map Fate.body)) (hlatest : e.latest = latestAt i)
    (counters : Counters) :
    ∃ done,
      e.encode counters (Bytes.zeros framingSize ++ f.payload) staleness (interval * (i % seqidLimit)) = .ok done ∧
      done.counters = counters ∧ done.packet = wireShard g 0 (g.packetPlace i) .data f.body ∧
      done.parity = (List.range' 0 (g.parityBehind i)).map (fun j => (parityShard g ledger (i / g.data) j).bytes) ∧
      done.encoder.Tracks g 0 mtuLimit 0 (i + 1) ((openFates g ledger (i + 1)).map Fate.body) ∧
      done.encoder.latest = latestAt (i + 1) := by
  have hg := htracks.valid
  set packet := Bytes.zeros framingSize ++ f.payload with hpacket
  have hbody : Frame.encode (packet.drop (0 + framingSize)) = f.body := by
    rw [hpacket, Nat.zero_add, List.drop_left' (Bytes.length_zeros _), Fate.body]
  obtain ⟨done, hdone, hseals⟩ := encode_fitting hlong htracks counters (interval * (i % seqidLimit))
  have hparity := hseals.parity_eq
  have hnext := hseals.tracks
  have hlatest' := hseals.latest_eq
  have hpacket' := hseals.packet_eq
  rw [hbody] at hparity hnext hpacket'
  refine ⟨done, hdone, hseals.counters_eq, hpacket', ?_, ?_, ?_⟩
  · simp only [continues_iff hlatest] at hparity
    have hdrop : done.parity.map (·.drop 0) = done.parity := List.map_id _
    rw [hdrop] at hparity
    rw [hparity, Geometry.parityBehind]
    split
    · rename_i hlast
      have hgroup : (openFates g ledger i).map Fate.body ++ [f.body] = sentBodies g ledger (i / g.data) := by
        rw [sentBodies, ← openFates_append_of_eq hg hf hlast.1, List.map_append, List.map_singleton]
      rw [← List.range_eq_range', hgroup]
      rfl
    · rfl
  · convert hnext using 1
    rcases div_succ_cases hg i with ⟨hlast, -⟩ | ⟨hlt, -⟩
    · rw [if_pos hlast, openFates_succ_of_eq hlast, List.map_nil]
    · rw [if_neg hlt.ne, openFates_succ_of_lt hg hf hlt, List.map_append, List.map_singleton]
  · rw [hlatest', latestAt, if_neg (Nat.succ_ne_zero i), Nat.add_sub_cancel]

theorem drop_packet {x : ℕ} : (wireShard g 0 x .data f.body).drop framingSize = f.payload := by
  rw [wireShard, Fate.body, Frame.encode, framingSize, ← List.drop_drop, List.drop_left' (Header.length_toBytes _),
    List.drop_left' (Bytes.length_little _ _)]

/-! ### Between two packets -/

/-- **The state of a session between two packets.** Sender and receiver stand where the ledger says, with everything
counted that it says so far, and what was lost of the group that is not complete is still to be verified. -/
structure Underway (g : Geometry) (ledger : List Fate) (i : ℕ) (history : List WireShard) (s : Simulation σ) :
    Prop where
  sender : s.sender.Tracks g 0 mtuLimit 0 i ((openFates g ledger i).map Fate.body)
  latest : s.sender.latest = latestAt i
  behind : s.receiver.Behind s.shared.counters g ledger history (tallyAt g ledger i).verified (fullAt g ledger i)
  opens : Opens history (i / g.data) (openFates g ledger i)
  bare : ∀ f ∈ openFates g ledger i, f.parity = []
  unverified : (((openFates g ledger i).filter (·.isLost)).map Fate.payload).Subperm s.lost
  tally_eq : s.tally = tallyAt g ledger i

/-- **The parity behind a packet.** With it come back the payloads of the group that the packet completes. -/
theorem sendParity_packet (hg : g.Valid) (hnear : 2 * (i / g.data) < g.ring) (hf : ledger[i]? = some f)
    (hshort : ∀ f ∈ ledger, f.body.length < sizePrefixLimit) (hbare : ∀ f ∈ openFates g ledger i, f.parity = [])
    {x x' : σ} (hx : s.source = x) (hlosses : src.losses (g.parityBehind i) x = (f.parity, x')) {verified full : ℕ}
    (h : s.receiver.Behind s.shared.counters g ledger history verified full)
    (hopens : Opens history (i / g.data) (openFates g ledger i ++ [f])) :
    ∃ s' history' back, sendParity src s
        ((List.range' 0 (g.parityBehind i)).map fun j => (parityShard g ledger (i / g.data) j).bytes) =
        .ok (s', back) ∧ s'.source = x' ∧ s'.sender = s.sender ∧ s'.lost = s.lost ∧
      s'.tally = { s.tally with
        paritySent := s.tally.paritySent + g.parityBehind i
        parityLost := s.tally.parityLost + f.parity.count true } ∧
      (back.map (·.bytes)).map Frame.payload? = (regainedAt g ledger i).map some ∧
      s'.receiver.Behind s'.shared.counters g ledger history' (verified + (regainedAt g ledger i).length) full ∧
      Opens history' ((i + 1) / g.data) (openFates g ledger (i + 1)) := by
  have hcount : (src.losses (g.parityBehind i) x).1 = f.parity := by rw [hlosses]
  have hrest : (src.losses (g.parityBehind i) x).2 = x' := by rw [hlosses]
  rcases div_succ_cases hg i with ⟨hlast, hdiv⟩ | ⟨hlt, hdiv⟩
  · -- the packet completes its group
    have hgroup := openFates_append_of_eq hg hf hlast
    have hlen : (groupFates g ledger (i / g.data)).length = g.data := by
      rw [← hgroup, List.length_append, List.length_singleton,
        length_openFates hg (List.getElem?_eq_some_iff.1 hf).1.le, hlast]
    have hregained := regained_concat hbare (f := f) (by rw [hgroup]; exact hlen)
    have hroom : 0 + g.parityBehind i ≤ g.parity := by
      unfold Geometry.parityBehind
      split <;> omega
    rw [hgroup] at hopens hregained
    obtain ⟨s', history', back, hsend, hsource, hsender, hlost, htally, hbehind, hold, hback⟩ :=
      sendParity_eq hx hnear hroom h (hopens.closes hlen)
    rw [hcount, hopens.heard_eq] at hback
    have hread : (back.map (·.bytes)).map Frame.payload? = (regainedAt g ledger i).map some := by
      rw [hback, regainedAt, if_pos hlast, hregained]
      split
      · rw [map_payload?_lostBodies hshort, List.map_map]
        rfl
      · rfl
    have hlength : back.length = (regainedAt g ledger i).length := by
      simpa using congrArg List.length hread
    rw [hcount] at htally
    rw [hlength] at hbehind
    refine ⟨s', history', back, hsend, hsource.trans hrest, hsender, hlost, htally, hread, hbehind, ?_⟩
    rw [hdiv, openFates_succ_of_eq hlast]
    exact opens_nil fun v hv => Nat.lt_succ_of_le (hold v hv)
  · -- the group goes on, and there is no parity
    have hnone : g.parityBehind i = 0 := if_neg fun hc => hlt.ne hc.1
    have hnil : regainedAt g ledger i = [] := if_neg hlt.ne
    rw [hnone] at hcount hrest ⊢
    rw [hnil]
    refine ⟨s, history, [], rfl, hx.trans hrest, rfl, rfl, ?_, rfl, h, ?_⟩
    · rw [← hcount]
      rfl
    · rwa [hdiv, openFates_succ_of_lt hg hf hlt]

/-! ### One packet -/

/-- A step whose parts succeed. -/
theorem step_eq {payload : Bytes} {x : σ} {done : Sealed} {s₁ s₂ : Simulation σ} {first more : List Buffer}
    (hpayload : src.payload s.source = (payload, x))
    (hencode : s.sender.encode s.shared.counters (Bytes.zeros framingSize ++ payload) staleness
      (interval * (i % seqidLimit)) = .ok done)
    (hdata : sendData src { s with
        source := x
        sender := done.encoder
        shared := { s.shared with counters := done.counters } } (done.packet.drop framingSize) done.packet =
      .ok (s₁, first))
    (hparity : sendParity src s₁ done.parity = .ok (s₂, more)) :
    step src s i = .ok ((first ++ more).foldl (fun s b => s.verify b.bytes) s₂) := by
  have hsent : step src s i = Failure.lift .fault (sendParity src s₁ done.parity) >>= fun sent =>
      .ok ((first ++ sent.2).foldl (fun s b => s.verify b.bytes) sent.1) := by
    unfold step
    rw [hpayload]
    change Failure.lift .packetRefused (s.sender.encode s.shared.counters (Bytes.zeros framingSize ++ payload) staleness
      (interval * (i % seqidLimit))) >>= _ = _
    rw [hencode]
    change Failure.lift .fault (sendData src _ _ _) >>= _ = _
    rw [hdata]
    rfl
  rw [hsent, hparity]
  rfl

/-- **One packet.** The session goes on as its ledger says. -/
theorem step_underway (hg : g.Valid) (hnear : 2 * (i / g.data) < g.ring) (hf : ledger[i]? = some f)
    (hshort : ∀ f ∈ ledger, f.body.length < sizePrefixLimit) (hlong : f.payload.length + framingSize ≤ mtuLimit)
    (h : s.Underway g ledger i history) {x' : σ} (hfate : src.fate g i s.source = (f, x')) :
    ∃ s' history', step src s i = .ok s' ∧ s'.source = x' ∧ s'.Underway g ledger (i + 1) history' := by
  obtain ⟨x₁, x₂, hpayload, hloses, hlosses⟩ := Source.draws_of_fate hfate
  have hi := (List.getElem?_eq_some_iff.1 hf).1
  have hplace : (openFates g ledger i).length = i % g.data := length_openFates hg hi.le
  have hlength : f.parity.length = g.parityBehind i := by
    rw [← src.length_losses (g.parityBehind i) x₂, hlosses]
  obtain ⟨done, hencode, hcounters, hpacket, hparity, htracks, hlatest⟩ :=
    encode_packet hf hlong h.sender h.latest s.shared.counters
  -- the packet
  have hgenuine : Genuine g 0 (sentBodies g ledger) ⟨i / g.data, (openFates g ledger i).length, done.packet⟩ := by
    rw [hplace, hpacket]
    exact genuine_packet hg hf
  have hdraw : (src.loses x₁).1 = f.isLost := by rw [hloses]
  obtain ⟨s₁, history₁, hdata, hsource₁, hsender₁, hlost₁, htally₁, hbehind₁, hopens₁⟩ :=
    sendData_eq (s := { s with
        source := x₁
        sender := done.encoder
        shared := { s.shared with counters := done.counters } })
      (by rw [hcounters]; exact h.behind) h.opens hgenuine hnear (by rw [hplace]; exact Nat.mod_lt i hg.data_pos) hdraw
  rw [hloses] at hsource₁
  -- the parity behind it
  obtain ⟨s₂, history₂, back, hsend, hsource₂, hsender₂, hlost₂, htally₂, hread, hbehind₂, hopens₂⟩ :=
    sendParity_packet hg hnear hf hshort h.bare hsource₁ hlosses hbehind₁ hopens₁
  -- what comes back
  have hlost : (((openFates g ledger i ++ [f]).filter (·.isLost)).map Fate.payload).Subperm s₂.lost := by
    rw [hlost₂, hlost₁]
    exact subperm_concat h.unverified f
  obtain ⟨hverified, hunverified⟩ := subperm_regainedAt hg hf hlost
  have hfold := foldl_verify hread hverified
  rw [← hparity] at hsend
  rw [← drop_packet (f := f) (x := g.packetPlace i), ← hpacket] at hdata
  refine ⟨_, history₂, step_eq hpayload hencode hdata hsend, ?_, ?_⟩
  · rw [List.nil_append, hfold]
    exact hsource₂
  · rw [List.nil_append, hfold]
    have hsucc := tallyAt_succ hg hf
    refine ⟨?_, ?_, ?_, hopens₂, bare_succ hg hf hlength h.bare, hunverified, ?_⟩
    · rw [hsender₂, hsender₁]
      exact htracks
    · rw [hsender₂, hsender₁]
      exact hlatest
    · rw [hsucc, fullAt_succ hg hi hf]
      exact hbehind₂
    · rw [htally₂, htally₁, hsucc, h.tally_eq]
      rfl

/-- **The rest of a session.** Packet by packet it goes on as its ledger says. -/
theorem steps_underway (hg : g.Valid) (hnear : 2 * (ledger.length / g.data) < g.ring)
    (hlong : ∀ x, (src.payload x).1.length + framingSize ≤ mtuLimit)
    (hshort : ∀ f ∈ ledger, f.body.length < sizePrefixLimit) {n : ℕ} (h : s.Underway g ledger i history)
    (hrest : src.ledger g n i s.source = ledger.drop i) (hlen : i + n = ledger.length) :
    ∃ s' history', steps src n i s = .ok s' ∧ s'.Underway g ledger ledger.length history' := by
  induction n generalizing i s history with
  | zero =>
    obtain rfl : i = ledger.length := hlen
    exact ⟨s, history, rfl, h⟩
  | succ n ih =>
    have hi : i < ledger.length := by omega
    have hget : ledger[i]? = some (src.fate g i s.source).1 := by
      rw [← List.head?_drop, ← hrest]
      rfl
    have hnext : src.ledger g n (i + 1) (src.fate g i s.source).2 = ledger.drop (i + 1) := by
      rw [← List.tail_drop, ← hrest]
      rfl
    have hdiv : i / g.data ≤ ledger.length / g.data := Nat.div_le_div_right hi.le
    obtain ⟨s', history', hstep, hsource, h'⟩ := step_underway hg (by omega) hget hshort (hlong s.source) h rfl
    obtain ⟨s'', history'', hsteps, h''⟩ := ih h' (by rw [hsource]; exact hnext) (by omega)
    refine ⟨s'', history'', ?_, h''⟩
    rw [steps, hstep]
    exact hsteps

/-! ### A whole session -/

theorem create_standard (hg : g.Valid) : ∃ e pool, Encoder.create g 0 .standard = .ok (e, pool) := by
  have hno : ¬ g.OverflowsAt 0 := by
    rintro (h | ⟨-, h⟩)
    · exact hg.not_overflows h
    · simp only [wordLimit, framingSize, headerSize, sizePrefixLength] at h
      omega
  have hok : g.verdictAt BufferPool.standard.bufferSize 0 = .ok () :=
    Geometry.verdictAt_eq_ok_iff.2 ⟨hg, by decide⟩
  have hcreate := Encoder.create_outcome g 0 .standard
  rw [Checked.outcome_neg hno, hok] at hcreate
  cases h : Encoder.create g 0 .standard with
  | ok made => exact ⟨made.1, made.2, rfl⟩
  | error e =>
    rw [h] at hcreate
    cases hcreate

/-- A session starts with nothing sent. -/
theorem start_underway (hg : g.Valid) (ledger : List Fate) (x : σ) :
    ∃ s, start g g x = .ok s ∧ s.source = x ∧ s.Underway g ledger 0 [] := by
  obtain ⟨e, pool, he⟩ := create_standard hg
  obtain ⟨htracks, hlatest⟩ := Encoder.tracks_create he
  obtain ⟨d, hd, hold⟩ := Decoder.holding_create hg 0 (sentBodies g ledger)
  have hretunes : d.retunes = 0 := by rw [(Decoder.create_eq_ok_iff.1 hd).2]
  have hstart : start g g x = .ok ⟨x, e, d, ⟨pool, .zero⟩, [], {}⟩ := by
    unfold start
    rw [he, hd]
    rfl
  have hopen : openFates g ledger 0 = [] := by rw [openFates, Nat.zero_mod, List.take_zero]
  have hstream : Stream g 0 (sentBodies g ledger) [] :=
    ⟨hg, Nat.dvd_zero _, length_sentBodies_le g ledger, fun _ => width_sentBodies_pos hg, by simp, by simp⟩
  have hverified : (tallyAt g ledger 0).verified = 0 := by simp [tallyAt]
  have hfull : fullAt g ledger 0 = 0 := by simp [fullAt]
  refine ⟨_, hstart, rfl, ?_, hlatest, ?_, ?_, ?_, ?_, ?_⟩
  · rw [hopen]
    exact htracks
  · rw [hverified, hfull]
    exact ⟨hold, hstream, hretunes, 0, Counters.raised_refl _, rfl, rfl, rfl⟩
  · rw [hopen]
    exact opens_nil (by simp)
  · simp [hopen]
  · rw [hopen]
    exact List.nil_subperm
  · simp [tallyAt]

/-- At the end of a session everything has been counted that its ledger says. -/
theorem outcome_exact (hg : g.Valid) (hsmall : ledger.length < wordLimit)
    (h : s.Underway g ledger ledger.length history) : ∃ o, s.outcome = .ok o ∧ o.Exact g ledger := by
  obtain ⟨hverified, hfull⟩ := at_length hg h.bare
  have hlost : (tallyAt g ledger ledger.length).dataLost = ledger.countP (·.isLost) := by
    rw [tallyAt, List.take_length]
  have hle : (tallyAt g ledger ledger.length).verified ≤ (tallyAt g ledger ledger.length).dataLost := by
    rw [hverified, hlost]
    exact sum_rescued_le _
  have hlostLe : (tallyAt g ledger ledger.length).dataLost ≤ ledger.length := by
    rw [hlost]
    exact List.countP_le_length
  have hfullLe : fullAt g ledger ledger.length ≤ ledger.length :=
    (card_filter_le _ _).trans (by rw [card_range]; exact Nat.div_le_self _ _)
  obtain ⟨n, hraised, herrors, hrecovered, hfullSets⟩ := h.behind.counted
  have hout : s.outcome =
      .ok ⟨s.tally, s.tally.dataLost - s.tally.verified, s.receiver.retunes, s.shared.counters⟩ := by
    rw [outcome, h.tally_eq, Checked.sub_eq hle]
    rfl
  refine ⟨_, hout, ?_⟩
  rw [h.tally_eq]
  constructor
  · rfl
  · exact sum_parityBehind hg _
  · exact hlost
  · simp [tallyAt]
  · exact hverified
  · rfl
  · exact Nat.add_sub_cancel' hle
  · exact h.behind.retunes
  · have herr := hraised .errors not_false
    rw [herrors] at herr
    exact herr
  · have hrec := Counters.toNat_get_of_raised hraised (k := .recovered) not_false (by omega)
    exact hrec.trans hrecovered
  · have hsets := Counters.toNat_get_of_raised hraised (k := .fullShardSets) not_false (by omega)
    exact (hsets.trans hfullSets).trans hfull

/-- Groups of a session that is not too long are told apart by their ids. -/
theorem near_of_small {n : ℕ} (hg : g.Valid) (hn : (n / g.data + 1) * (g.data + g.parity) < 2 ^ 31) :
    2 * (n / g.data) < g.ring := by
  have hring : 2 * (n / g.data + 1) ≤ g.ring := by
    rw [Geometry.ring, Nat.le_div_iff_mul_le (Geometry.total_pos hg), Nat.mul_assoc]
    have htotal : (n / g.data + 1) * g.total < 2 ^ 31 := hn
    simp only [seqidLimit]
    omega
  omega

/-- Whatever a source decides, a session comes to what its ledger tells. -/
theorem run_exact {n : ℕ} (hg : g.Valid) (hn : (n / g.data + 1) * (g.data + g.parity) < 2 ^ 31)
    (hlong : ∀ x, (src.payload x).1.length + framingSize ≤ mtuLimit) (x : σ) :
    ∃ o, run src g g n x = .ok o ∧ o.Exact g (src.ledger g n 0 x) := by
  have hlen := src.length_ledger g n 0 x
  have hsmall : n < 2 ^ 31 := by
    calc n < n / g.data * g.data + g.data := Nat.lt_div_mul_add hg.data_pos
      _ = (n / g.data + 1) * g.data := (Nat.succ_mul _ _).symm
      _ ≤ (n / g.data + 1) * (g.data + g.parity) := Nat.mul_le_mul_left _ (Nat.le_add_right _ _)
      _ < 2 ^ 31 := hn
  have hshort : ∀ f ∈ src.ledger g n 0 x, f.body.length < sizePrefixLimit := by
    intro f hf
    have hpayload := Source.forall_mem_ledger (p := fun p => p.length + framingSize ≤ mtuLimit) hlong f hf
    rw [Fate.body, Frame.length_encode]
    simp only [framingSize, headerSize, sizePrefixLength, mtuLimit, sizePrefixLimit] at *
    omega
  obtain ⟨s, hstart, hsource, h⟩ := start_underway hg (src.ledger g n 0 x) x
  obtain ⟨s', history, hsteps, h'⟩ := steps_underway (n := n) hg (by rw [hlen]; exact near_of_small hg hn)
    hlong hshort h (by rw [hsource, List.drop_zero]) (by rw [hlen, Nat.zero_add])
  obtain ⟨o, hout, hexact⟩ := outcome_exact hg (by rw [hlen]; simp only [wordLimit]; omega) h'
  refine ⟨o, ?_, hexact⟩
  unfold run
  rw [hstart]
  change (do (← steps src n 0 s).outcome) = _
  rw [hsteps]
  exact hout

end Simulation

end PacketFec
