import Mathlib
import PacketFec.Proofs.Receiving

/-!
# A receiver takes every packet

Whatever bytes a receiver is given, in whatever order, it takes them without a fault. Its sets fit its
geometry and stay so when the geometry changes, because they are given up then.

* `Decoder.after`: a receiver behind some packets.
* `Decoder.decode_sound`: one packet.
* `Decoder.after_sound`: any packets.
* `Decoder.hostile_input`: **every run of a new receiver is free of faults**, and what holds behind it.
-/

namespace PacketFec.Decoder

variable {g : Geometry} {d : Decoder} {shared : Shared}

/-- The receiver behind some packets, with what it shares. -/
def after (d : Decoder) (shared : Shared) : List Bytes → Except Error (Decoder × Shared)
  | [] => .ok (d, shared)
  | packet :: rest => do
    let t ← d.decode shared packet
    t.decoder.after t.shared rest

theorem after_concat (d : Decoder) (shared : Shared) (packets : List Bytes) (packet : Bytes) :
    d.after shared (packets ++ [packet]) = do
      let r ← d.after shared packets
      let t ← r.1.decode r.2 packet
      return (t.decoder, t.shared) := by
  induction packets generalizing d shared with
  | nil => rfl
  | cons first rest ih =>
    rw [List.cons_append, after, after]
    cases d.decode shared first with
    | error e => rfl
    | ok t => exact ih t.decoder t.shared

/-- A run of which a part is known to return. -/
theorem after_of_prefix {past packets : List Bytes} (hpast : past <+: packets) {r : Decoder × Shared}
    (h : d.after shared packets = .ok r) : ∃ r', d.after shared past = .ok r' := by
  induction past generalizing d shared packets with
  | nil => exact ⟨_, rfl⟩
  | cons first rest ih =>
    obtain ⟨rest', rfl⟩ := hpast
    rw [List.cons_append, after] at h
    obtain ⟨t, hdec, hrest⟩ := Checked.bind_eq_ok.1 h
    obtain ⟨r', hr'⟩ := ih (List.prefix_append rest rest') hrest
    exact ⟨r', by rw [after, hdec]; exact hr'⟩

/-- The last packet of a run. -/
theorem after_concat_eq_ok {packets : List Bytes} {packet : Bytes} {r : Decoder × Shared} :
    d.after shared (packets ++ [packet]) = .ok r ↔
      ∃ e s t, d.after shared packets = .ok (e, s) ∧ e.decode s packet = .ok t ∧ r = (t.decoder, t.shared) := by
  rw [after_concat, Checked.bind_eq_ok]
  constructor
  · rintro ⟨⟨e, s⟩, hafter, h⟩
    obtain ⟨t, hdec, h⟩ := Checked.bind_eq_ok.1 h
    cases h
    exact ⟨e, s, t, hafter, hdec, rfl⟩
  · rintro ⟨e, s, t, hafter, hdec, rfl⟩
    refine ⟨(e, s), hafter, ?_⟩
    rw [show e.decode s packet = _ from hdec]
    rfl

/-- A packet that is a bare header, and so are all shards held of its group. -/
def Bare (d : Decoder) (packet : Bytes) : Prop :=
  ∃ header group, Header.read packet = .ok header ∧ d.geometry.groupOf header.seqid = .ok group ∧
    packet.length = headerSize ∧
    ∀ set, d.sets.get? group = some set → ∀ b ∈ set.buffers, b.bytes.length = headerSize

/-- A failure is counted only where a group of bare headers fills up. -/
theorem bare_of_refused (h : d.Sound) {packet : Bytes} {shard : Shard} (hparse : Shard.parse packet = .ok shard)
    {b : Buffer} {t : Decoded} (hs : (d.noted shard).Settles shared shard b t)
    (hne : t.shared.counters.errors ≠ shared.counters.errors) : d.Bare packet := by
  obtain ⟨hread, hbytes, hlong⟩ := parse_eq_ok hparse
  obtain ⟨hfull, hnone⟩ := hs.refused hne
  have hset : ((d.noted shard).setOf shard).Sound d.geometry := sound_setOf (h.noted shard) shard
  have hins := ShardSet.sound_insert hset hs.vacant (b := b) (by rw [hs.bytes_eq, hbytes]; exact hlong)
  set slots := (((d.noted shard).setOf shard).insert ((d.noted shard).position shard) b).slots with hslots
  have hcount : (slots.filterMap id).length = ((d.noted shard).setOf shard).members + 1 := hins.members_eq.symm
  -- the code refuses enough shards only where all their bodies are empty
  have hlen : (bodiesIn slots).length = d.geometry.total := by
    rw [bodiesIn, List.length_map]
    exact hins.length_eq
  have hnil := body_nil_of_restore h.valid hlen
    (by rw [bodiesIn, filterMap_map_map, List.length_map, hcount]; exact hfull) hnone
  have hbare : ∀ c ∈ slots.filterMap id, c.bytes.length = headerSize := by
    intro c hc
    have hdrop := hnil (c.bytes.drop headerSize) (by
      rw [bodiesIn, filterMap_map_map]
      exact List.mem_map_of_mem hc)
    have := hins.headed c hc
    rw [List.drop_eq_nil_iff] at hdrop
    omega
  obtain ⟨l₁, l₂, h1, h2⟩ := ShardSet.buffers_set hs.vacant b
  have hins2 : slots.filterMap id = l₁ ++ b :: l₂ := h2
  rw [hins2] at hbare
  refine ⟨shard.header, _, hread, Geometry.groupOf_eq h.valid _, ?_, fun set hget c hc => ?_⟩
  · rw [← hbytes, ← hs.bytes_eq]
    exact hbare b (by simp)
  · have hof : (d.noted shard).setOf shard = set := by
      have hget' : (d.noted shard).sets.get? ((d.noted shard).groupId shard) = some set := hget
      rw [setOf, hget', Option.getD_some]
    rw [ShardSet.buffers, ← hof, h1] at hc
    apply hbare c
    rcases List.mem_append.1 hc with hc | hc
    · exact List.mem_append_left _ hc
    · exact List.mem_append_right _ (List.mem_cons_of_mem _ hc)

/-- **One packet.** It is taken without a fault, whatever its bytes are, and the receiver stays sound. -/
theorem decode_sound (h : d.Sound) (hlt : d.retunes + 1 < wordLimit) (shared : Shared) (packet : Bytes) :
    ∃ t, d.decode shared packet = .ok t ∧ t.decoder.Sound ∧ t.decoder.retunes ≤ d.retunes + 1 := by
  cases hparse : Shard.parse packet with
  | error e => exact ⟨_, decode_of_parse_error hparse d shared, h, Nat.le_succ _⟩
  | ok shard =>
    obtain ⟨-, hbytes, hlong⟩ := parse_eq_ok hparse
    have hnoted := h.noted shard
    rw [decode_eq h.valid hparse]
    split
    · -- at its place, the shard is dropped or put into a set
      rcases receive_cases hnoted shared (by rwa [hbytes]) with ⟨hrec, -⟩ | ⟨-, b, t, hrec, hs⟩
      · exact ⟨_, hrec, hnoted, Nat.le_succ _⟩
      · have hfilled := sound_filled hnoted hs.vacant (b := b) (by rw [hs.bytes_eq, hbytes]; exact hlong)
        refine ⟨t, hrec, ?_, ?_⟩
        · rw [hs.decoder_eq]
          exact hnoted.settled _ hfilled
        · rw [hs.decoder_eq]
          exact Nat.le_succ _
    · -- at any other place it can only change the geometry
      rcases retune_cases (d := d.noted shard) hlt shared with ⟨hret, -⟩ | ⟨g, shared', hdet, -, hret⟩
      · exact ⟨_, hret, hnoted, Nat.le_succ _⟩
      · exact ⟨_, hret, ⟨valid_of_detected hdet, nofun⟩, le_rfl⟩

/-- A packet behind which a failure is counted is bare. -/
theorem bare_of_decode (h : d.Sound) {packet : Bytes} {t : Decoded} (hdec : d.decode shared packet = .ok t)
    (hne : t.shared.counters.errors ≠ shared.counters.errors) : d.Bare packet := by
  cases hparse : Shard.parse packet with
  | error e =>
    rw [decode_of_parse_error hparse] at hdec
    cases hdec
    exact absurd rfl hne
  | ok shard =>
    obtain ⟨-, hbytes, hlong⟩ := parse_eq_ok hparse
    rw [decode_eq h.valid hparse] at hdec
    split at hdec
    · rcases receive_cases (h.noted shard) shared (by rwa [hbytes]) with ⟨hrec, -⟩ | ⟨-, b, t', hrec, hs⟩
      · rw [hrec] at hdec
        cases hdec
        exact absurd rfl hne
      · rw [hrec] at hdec
        cases hdec
        exact bare_of_refused h hparse hs hne
    · exact absurd (errors_retune hdec) hne

/-- **Any packets.** They are taken without a fault, and the receiver stays sound. -/
theorem after_sound (h : d.Sound) (packets : List Bytes) (hlt : d.retunes + packets.length < wordLimit)
    (shared : Shared) :
    ∃ d' shared', d.after shared packets = .ok (d', shared') ∧ d'.Sound ∧
      d'.retunes ≤ d.retunes + packets.length := by
  -- each packet adds at most one change of geometry, so their count does not overflow
  induction packets generalizing d shared with
  | nil => exact ⟨d, shared, rfl, h, le_rfl⟩
  | cons packet rest ih =>
    rw [List.length_cons] at hlt
    obtain ⟨t, hdec, hsound, hretunes⟩ := decode_sound h (by omega) shared packet
    obtain ⟨d', shared', h1, h2, h3⟩ := ih hsound (by omega) t.shared
    refine ⟨d', shared', ?_, h2, by rw [List.length_cons]; omega⟩
    rw [after, hdec]
    exact h1

/-- What holds of a receiver behind every call: its geometry passes the validation, its sets have a slot for
each shard of a group, a geometry that its log names once the next shard is noted passes the validation too,
and only a group of bare headers is counted as a failure of the code. -/
structure Safe (d : Decoder) (shared : Shared) : Prop where
  valid : d.geometry.validate = .ok ()
  fits : ∀ entry ∈ d.sets, d.geometry.size = .ok entry.2.slots.length
  detects : ∀ shard g, (d.noted shard).detected? = some g → g.validate = .ok ()
  refuses : ∀ packet t, d.decode shared packet = .ok t →
    t.shared.counters.errors ≠ shared.counters.errors → d.Bare packet

/-- **Every run of a new receiver is free of faults**, whatever packets it is given and whatever the pool and
the counters hold, and it is safe behind each of them. -/
theorem hostile_input (hg : g.Valid) (shared : Shared) (packets : List Bytes)
    (hlt : packets.length < wordLimit) :
    ∃ d₀ d shared', create g = .ok d₀ ∧ d₀.after shared packets = .ok (d, shared') ∧ d.Safe shared' := by
  have hsound : Sound ⟨g, [], none, .empty, 0⟩ := ⟨hg, nofun⟩
  obtain ⟨d, shared', hafter, hd, -⟩ := after_sound hsound packets (by rwa [Nat.zero_add]) shared
  refine ⟨_, d, shared', create_eq_ok_iff.2 ⟨hg, rfl⟩, hafter, Geometry.validate_eq_ok_iff.2 hd.valid, ?_, ?_, ?_⟩
  · intro entry hentry
    rw [Geometry.size_eq hd.valid, (hd.sets entry hentry).length_eq]
  · intro shard g' hdet
    exact Geometry.validate_eq_ok_iff.2 (valid_of_detected hdet)
  · intro packet t hdec hne
    exact bare_of_decode hd hdec hne

/-- Two bare headers, with a packet between them that is no shard. -/
theorem hostile_input_of_bare_headers : (⟨2, 1⟩ : Geometry).Valid ∧
    ∃ d₀ d shared', create ⟨2, 1⟩ = .ok d₀ ∧ d₀.after ⟨.create 16 8, .zero⟩
      [[0, 0, 0, 0, 0xF1, 0], [7], [2, 0, 0, 0, 0xF2, 0]] = .ok (d, shared') ∧ d.Safe shared' :=
  ⟨by decide, hostile_input (by decide) _ _ (by decide)⟩

end PacketFec.Decoder
