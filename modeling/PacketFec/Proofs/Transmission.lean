import Mathlib
import PacketFec.Proofs.Sealing

/-!
# Runs of a sender

A sender answers calls one after the other. A refused call changes nothing, so what the sender does depends
only on the calls that went before with success.

* `Encoder.answers`, `Encoder.sent`: the answers to a list of calls, and the successful ones.
* `Encoder.answers_follow`: the state behind each answer follows the successful calls before it.
* `Encoder.numbering`: **the closed form of the numbering**, over every run from a new sender.
-/

namespace PacketFec

/-- A packet handed to a sender, with its staleness threshold and the reading of the clock. -/
structure Call where
  /-- The packet, with room for its header and length prefix. -/
  packet : Bytes
  /-- From this gap on the group is stale, in microseconds. -/
  staleness : ℕ
  /-- The time of the call, in microseconds. -/
  now : ℕ

/-- The framed body that a call puts on the wire. -/
def Call.body (offset : ℕ) (c : Call) : Bytes := Frame.encode (c.packet.drop (offset + framingSize))

/-- The bodies of the group that is not complete after some calls. -/
def openBodies (offset : ℕ) (g : Geometry) (past : List Call) : List Bytes :=
  (past.drop (past.length / g.data * g.data)).map (Call.body offset)

theorem openBodies_concat (offset : ℕ) {g : Geometry} (hg : g.Valid) (past : List Call) (c : Call) :
    openBodies offset g (past ++ [c]) =
      if past.length % g.data + 1 = g.data then [] else openBodies offset g past ++ [c.body offset] := by
  have hdiv := Nat.div_add_mod' past.length g.data
  have hmod := Nat.mod_lt past.length hg.data_pos
  unfold openBodies
  rw [List.length_append, List.length_singleton]
  split
  · rename_i hlast
    have hnext : (past.length + 1) / g.data * g.data = past.length + 1 := by
      rw [(Geometry.mod_div_succ_of_eq hlast).2, Nat.succ_mul]
      omega
    rw [hnext, List.drop_of_length_le (by simp), List.map_nil]
  · rename_i hlast
    rw [(Geometry.mod_div_succ_of_lt (by omega)).2, List.drop_append_of_le_length (by omega), List.map_append]
    rfl

namespace Encoder

/-- The answers of a sender to calls, in order. A refused call leaves the sender as it was, and nothing is
answered behind a fault. -/
def answers (e : Encoder) (counters : Counters) : List Call → List (Call × Except Error Sealed)
  | [] => []
  | c :: rest =>
    match e.encode counters c.packet c.staleness c.now with
    | .ok s => (c, .ok s) :: s.encoder.answers s.counters rest
    | .error r => (c, .error r) :: if r.IsFault then [] else e.answers counters rest

/-- The successful calls and their answers. -/
def sent (e : Encoder) (counters : Counters) (calls : List Call) : List (Call × Sealed) :=
  (e.answers counters calls).filterMap fun a => a.2.toOption.map (a.1, ·)

variable {g : Geometry} {offset size base : ℕ} {e : Encoder}

/-- The state of a sender behind some successful calls. -/
structure Follows (e : Encoder) (g : Geometry) (offset size base : ℕ) (past : List Call) : Prop where
  tracks : e.Tracks g offset size base past.length (openBodies offset g past)
  latest : e.latest = past.getLast?.map Call.now

theorem encode_error {counters : Counters} {packet : Bytes} {staleness now : ℕ} {r : Error}
    (h : e.screen packet.length = .error r) : e.encode counters packet staleness now = .error r := by
  unfold encode
  simp only [h]
  rfl

/-- One call is answered with a sealed packet, or refused. -/
theorem encode_follows {past : List Call} (h : e.Follows g offset size base past) (counters : Counters)
    (c : Call) :
    (∃ r, e.encode counters c.packet c.staleness c.now = .error r ∧ ¬ r.IsFault ∧
      ¬ Takes offset size c.packet) ∨
      ∃ s, e.encode counters c.packet c.staleness c.now = .ok s ∧ Takes offset size c.packet ∧
        e.Seals g offset size base past.length (openBodies offset g past) counters c.packet c.staleness c.now s ∧
        s.encoder.Follows g offset size base (past ++ [c]) := by
  rcases screen_cases h.tracks.toFramed c.packet with ⟨hscreen, htakes⟩ | ⟨⟨r, hr, hfault⟩, hnot⟩
  · obtain ⟨s, h1, h2⟩ := encode_tracks h.tracks hscreen htakes counters c.staleness c.now
    refine .inr ⟨s, h1, htakes, h2, ?_, ?_⟩
    · rw [openBodies_concat offset h.tracks.valid, List.length_append, List.length_singleton]
      exact h2.tracks
    · rw [h2.latest_eq, List.getLast?_concat]
      rfl
  · exact .inl ⟨r, encode_error hr, hfault, hnot⟩

/-- **Every run of a sender.** Each call is answered, never with a fault, and with success where its packet is
taken. The state in front of a successful call follows the successful calls before it. -/
theorem answers_follow {past : List Call} (h : e.Follows g offset size base past) (counters : Counters)
    (calls : List Call) :
    (e.answers counters calls).map Prod.fst = calls ∧
      (∀ a ∈ e.answers counters calls, (∃ s, a.2 = .ok s) ∧ Takes offset size a.1.packet ∨
        (∃ r, a.2 = .error r ∧ ¬ r.IsFault) ∧ ¬ Takes offset size a.1.packet) ∧
      ∀ i c s, (e.sent counters calls)[i]? = some (c, s) →
        ∃ e' : Encoder, e'.Follows g offset size base (past ++ ((e.sent counters calls).take i).map Prod.fst) ∧
          e'.Seals g offset size base (past.length + i)
            (openBodies offset g (past ++ ((e.sent counters calls).take i).map Prod.fst))
            counters c.packet c.staleness c.now s := by
  -- a refused call leaves the state as it was, so it drops out of what the next state follows
  induction calls generalizing e past with
  | nil => exact ⟨rfl, nofun, nofun⟩
  | cons c rest ih =>
    rcases encode_follows h counters c with ⟨r, hr, hfault, hnot⟩ | ⟨s, hs, htakes, hseals, hnext⟩
    · obtain ⟨h1, h2, h3⟩ := ih h
      have hans : e.answers counters (c :: rest) = (c, .error r) :: e.answers counters rest := by
        rw [answers, hr]
        simp only [if_neg hfault]
      have hsent : e.sent counters (c :: rest) = e.sent counters rest := by
        unfold sent
        rw [hans]
        rfl
      rw [hans, hsent]
      refine ⟨by rw [List.map_cons, h1], fun a ha => ?_, h3⟩
      rcases List.mem_cons.1 ha with rfl | ha
      · exact .inr ⟨⟨r, rfl, hfault⟩, hnot⟩
      · exact h2 a ha
    · have hc := hseals.counters_eq
      obtain ⟨h1, h2, h3⟩ := ih hnext
      have hans : e.answers counters (c :: rest) = (c, .ok s) :: s.encoder.answers counters rest := by
        rw [answers, hs]
        simp only [hc]
      have hsent : e.sent counters (c :: rest) = (c, s) :: s.encoder.sent counters rest := by
        unfold sent
        rw [hans]
        rfl
      rw [hans, hsent]
      refine ⟨by rw [List.map_cons, h1], fun a ha => ?_, fun i c' s' hi => ?_⟩
      · rcases List.mem_cons.1 ha with rfl | ha
        · exact .inl ⟨⟨s, rfl⟩, htakes⟩
        · exact h2 a ha
      · cases i with
        | zero =>
          obtain ⟨rfl, rfl⟩ := Prod.mk.inj (Option.some.inj hi)
          exact ⟨e, by simpa using h, by simpa using hseals⟩
        | succ i =>
          obtain ⟨e', h4, h5⟩ := h3 i c' s' hi
          refine ⟨e', by simpa using h4, ?_⟩
          simpa [Nat.add_assoc, Nat.add_comm 1] using h5

/-! ### The numbering -/

/-- A new sender follows no call. -/
theorem follows_create {pool pool' : BufferPool} (h : create g offset pool = .ok (e, pool')) :
    e.Follows g offset pool.bufferSize e.next.toNat [] := by
  obtain ⟨htracks, hlatest⟩ := tracks_create h
  obtain ⟨-, -, he⟩ := create_spec h
  have hnext : e.next.toNat = 0 := by
    rw [he]
    rfl
  rw [hnext]
  exact ⟨by simpa [openBodies] using htracks, hlatest⟩

/-- A new sender, started anywhere, follows no call. -/
theorem follows_nil {pool pool' : BufferPool} (h : create g offset pool = .ok (e, pool')) (seqid : UInt32) :
    ∃ e₀, e.startAt seqid = .ok e₀ ∧ e₀.Follows g offset pool.bufferSize e₀.next.toNat [] ∧
      e₀.next.toNat < g.ceiling := by
  obtain ⟨htracks, hlatest⟩ := tracks_create h
  obtain ⟨e₀, h1, h2, h3, h4⟩ := tracks_startAt htracks seqid
  refine ⟨e₀, h1, ⟨?_, by rw [h3, hlatest]; rfl⟩, h4⟩
  simpa [openBodies] using h2

/-- A sender is continuous where its last successful call was recent. -/
theorem Follows.continues_iff {past : List Call} (h : e.Follows g offset size base past) (staleness now : ℕ) :
    e.continues staleness now = true ↔ ∃ c, past.getLast? = some c ∧ now - c.now < staleness := by
  unfold continues
  rw [h.latest]
  cases past.getLast? with
  | none => simp
  | some c => simp

theorem getLast?_map_take {α β : Type} (f : α → β) {l : List α} {n : ℕ} (hn : n < l.length) (b : β) :
    ((l.take n).map f).getLast? = some b ↔ 0 < n ∧ ∃ a, l[n - 1]? = some a ∧ f a = b := by
  rcases Nat.eq_zero_or_pos n with rfl | hpos
  · simp
  · have hlen : (l.take n).length = n := by rw [List.length_take]; omega
    rw [List.getLast?_map, List.getLast?_eq_getElem?, hlen, List.getElem?_take_of_lt (by omega)]
    simp [hpos]

/-- Every sequence id of a stream lies below the ceiling and has the kind of its place. -/
theorem seqidAt_place (hg : g.Valid) (hbase : g.total ∣ base) {k p : ℕ} (hp : p < g.total) :
    (g.seqidAt base (g.place k p)).toNat < g.ceiling ∧
      g.kindAt (g.seqidAt base (g.place k p)) = .ok (if p < g.data then .data else .parity) := by
  refine ⟨?_, ?_⟩
  · rw [Geometry.toNat_seqidAt hg]
    exact Nat.mod_lt _ (Geometry.ceiling_pos hg)
  · rw [Geometry.kindAt_seqidAt hg hbase, Geometry.place_mod hp]

/-- The answer to the `n`-th successful call of a run, in closed form. The packet gets the sequence id of packet
`n % D` of group `n / D`. There is parity exactly where the packet completes its group soon enough after the
successful call before it, and then all of it, with the sequence ids behind the packets of the group. -/
structure Numbered (g : Geometry) (offset base ceiling : ℕ) (sent : List (Call × Sealed)) (n : ℕ) (c : Call)
    (s : Sealed) : Prop where
  packet : Header.read (s.packet.drop offset) =
    .ok ⟨UInt32.ofNat ((base + (n / g.data * g.total + n % g.data)) % ceiling), .data⟩
  protected_iff : s.parity ≠ [] ↔ n % g.data = g.data - 1 ∧ 0 < n ∧
    ∃ before, sent[n - 1]? = some before ∧ c.now - before.1.now < c.staleness
  length : s.parity ≠ [] → s.parity.length = g.parity
  parity : ∀ k slice, s.parity[k]? = some slice → Header.read (slice.drop offset) =
    .ok ⟨UInt32.ofNat ((base + (n / g.data * g.total + (g.data + k))) % ceiling), .parity⟩
  fits : ∀ shard ∈ s.packet :: s.parity, ∃ header, Header.read (shard.drop offset) = .ok header ∧
    header.seqid.toNat < ceiling ∧ g.kindAt header.seqid = .ok header.kind
  aligned : n % g.data = g.data - 1 → s.encoder.next.toNat % g.total = 0

/-- What sealing a packet gives is the closed form. -/
theorem numbered_of_seals {counters : Counters} {sent : List (Call × Sealed)} {n : ℕ} {c : Call} {s : Sealed}
    (hn : sent[n]? = some (c, s)) (hfol : e.Follows g offset size base ((sent.take n).map Prod.fst))
    (hseals : e.Seals g offset size base n (openBodies offset g ((sent.take n).map Prod.fst)) counters c.packet
      c.staleness c.now s) : Numbered g offset base g.ceiling sent n c s := by
  have hg := hfol.tracks.valid
  have hbase := hfol.tracks.aligned
  have hpar := hg.parity_pos
  have hmod := Nat.mod_lt n hg.data_pos
  have htotal : g.total = g.data + g.parity := rfl
  have hnlen : n < sent.length := (List.getElem?_eq_some_iff.1 hn).1
  -- the packet and the parity as they stand on the wire
  have hdata : Header.read (s.packet.drop offset) =
      .ok ⟨g.seqidAt base (g.place (n / g.data) (n % g.data)), .data⟩ := by
    rw [hseals.drop_packet]
    exact Header.read_toBytes_append _ _
  have hslice : ∀ k slice, s.parity[k]? = some slice → k < g.parity ∧ Header.read (slice.drop offset) =
      .ok ⟨g.seqidAt base (g.place (n / g.data) (g.data + k)), .parity⟩ := by
    intro k slice hk
    obtain ⟨-, hlt, hdrop⟩ := hseals.drop_parity hk
    rw [hdrop]
    exact ⟨hlt, Header.read_toBytes_append _ _⟩
  have hlen := hseals.length_parity
  have hsome : s.parity ≠ [] ↔ n % g.data + 1 = g.data ∧ e.continues c.staleness c.now = true := by
    rw [← List.length_pos_iff, hlen]
    split
    · rename_i hc
      exact ⟨fun _ => hc, fun _ => hpar⟩
    · rename_i hc
      exact ⟨fun h0 => absurd h0 (lt_irrefl 0), fun h0 => absurd h0 hc⟩
  refine ⟨hdata, ?_, ?_, fun k slice hk => (hslice k slice hk).2, ?_, ?_⟩
  · rw [hsome, hfol.continues_iff]
    simp only [getLast?_map_take Prod.fst hnlen]
    constructor
    · rintro ⟨h1, _, ⟨h2, before, h3, rfl⟩, h4⟩
      exact ⟨by omega, h2, before, h3, h4⟩
    · rintro ⟨h1, h2, before, h3, h4⟩
      exact ⟨by omega, before.1, ⟨h2, before, h3, rfl⟩, h4⟩
  · intro hne
    rw [hlen, if_pos (hsome.1 hne)]
  · intro shard hshard
    rcases List.mem_cons.1 hshard with rfl | hshard
    · obtain ⟨h1, h2⟩ := seqidAt_place hg hbase (k := n / g.data) (p := n % g.data) (by omega)
      exact ⟨_, hdata, h1, by rw [h2, if_pos hmod]⟩
    · obtain ⟨k, hk⟩ := List.getElem?_of_mem hshard
      obtain ⟨hkp, hread⟩ := hslice k shard hk
      obtain ⟨h1, h2⟩ := seqidAt_place hg hbase (k := n / g.data) (p := g.data + k) (by omega)
      exact ⟨_, hread, h1, by rw [h2, if_neg (by omega)]⟩
  · intro hlast
    have hzero := (Geometry.packetPlace_succ_of_eq (g := g) (n := n) (by omega)).1
    rw [hseals.tracks.next_eq, Geometry.seqidAt_mod hg hbase, Geometry.packetPlace, hzero,
      Geometry.place_mod (by omega)]

/-- **Closed form of the numbering.** Take any sender, started anywhere, and any calls. Every call is answered,
with success where its packet is taken and never with a fault. The successful ones are numbered without a gap,
and no failure of the code is counted. -/
theorem numbering {pool pool' : BufferPool} (h : create g offset pool = .ok (e, pool')) (seqid : UInt32)
    (counters : Counters) (calls : List Call) :
    ∃ e₀ ceiling, e.startAt seqid = .ok e₀ ∧ g.paws = .ok ceiling ∧ e₀.next.toNat < ceiling ∧
      g.total ∣ e₀.next.toNat ∧ (e₀.answers counters calls).map Prod.fst = calls ∧
      (∀ a ∈ e₀.answers counters calls, (∃ s, a.2 = .ok s) ∧ Takes offset pool.bufferSize a.1.packet ∨
        (∃ r, a.2 = .error r ∧ ¬ r.IsFault) ∧ ¬ Takes offset pool.bufferSize a.1.packet) ∧
      ∀ n c s, (e₀.sent counters calls)[n]? = some (c, s) → s.counters = counters ∧
        Numbered g offset e₀.next.toNat ceiling (e₀.sent counters calls) n c s := by
  obtain ⟨e₀, hstart, hfollows, hlt⟩ := follows_nil h seqid
  have hg := hfollows.tracks.valid
  obtain ⟨hans, hfault, hsent⟩ := answers_follow hfollows counters calls
  refine ⟨e₀, g.ceiling, hstart, Geometry.paws_eq_ceiling hg, hlt, hfollows.tracks.aligned, hans, hfault,
    fun n c s hn => ?_⟩
  obtain ⟨e', hfol, hseals⟩ := hsent n c s hn
  simp only [List.nil_append, List.length_nil, Nat.zero_add] at hfol hseals
  exact ⟨hseals.counters_eq, numbered_of_seals hn hfol hseals⟩

/-- A sender of groups of two packets and one parity shard whose sequence ids wrap behind its first group. The
second of its calls is refused. -/
theorem numbering_of_wrapping_run : ∃ e pool' e₀ ceiling,
    create ⟨2, 1⟩ 0 (.create 16 8) = .ok (e, pool') ∧ e.startAt 4294967292 = .ok e₀ ∧
      ∀ n c s, (e₀.sent .zero [⟨.replicate 9 7, 5, 0⟩, ⟨[1], 5, 0⟩, ⟨.replicate 10 7, 5, 3⟩,
          ⟨.replicate 10 7, 5, 9⟩])[n]? = some (c, s) → s.counters = .zero ∧
        Numbered ⟨2, 1⟩ 0 e₀.next.toNat ceiling (e₀.sent .zero [⟨.replicate 9 7, 5, 0⟩, ⟨[1], 5, 0⟩,
          ⟨.replicate 10 7, 5, 3⟩, ⟨.replicate 10 7, 5, 9⟩]) n c s := by
  have hcreate : create ⟨2, 1⟩ 0 (.create 16 8) = .ok _ := rfl
  obtain ⟨e₀, ceiling, hstart, -, -, -, -, -, hsent⟩ := numbering hcreate 4294967292 .zero
    [⟨.replicate 9 7, 5, 0⟩, ⟨[1], 5, 0⟩, ⟨.replicate 10 7, 5, 3⟩, ⟨.replicate 10 7, 5, 9⟩]
  exact ⟨_, _, e₀, ceiling, hcreate, hstart, hsent⟩

end Encoder

end PacketFec
