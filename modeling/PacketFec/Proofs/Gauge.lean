import Mathlib
import PacketFec.Proofs.Counting

/-!
# What the gauge of tracked sets shows

All receivers of a session write the number of their sets into one gauge, each its own number, and only where a packet
goes into a set or changes the geometry. So the gauge shows what one receiver tracks, the last one that has written.
When that receiver is closed, the gauge goes on showing what it tracked then. This is the number of all tracked sets
only where all other receivers track nothing.

* `Taking.writes`, `Decoder.decode_gauge`: **when a packet writes the gauge, and what.**
* `Session.author`: whose number the gauge shows.
* `Session.Shows`, `Session.shows_next`: what it shows, and one request.
* `Session.gauge_shows`: **what the gauge shows behind any requests, and when it counts what all receivers track.**
* `Session.gauge_misses`: two receivers, and a receiver that is closed.
-/

namespace PacketFec

/-- Whether a packet has its receiver write the gauge: it goes into a set, or the geometry changes. -/
def Taking.writes (k : Taking) : Bool := k.joins || decide (k.after.retunes ≠ k.before.retunes)

namespace Decoder

variable {d : Decoder} {shared : Shared} {t : Decoded} {packet : Bytes} {shard : Shard} {b : Buffer}

/-! ### One packet -/

/-- Evicting sets writes how many are left. -/
theorem evict_gauge (d : Decoder) (shared : Shared) (groups : ℕ) :
    (d.evict shared groups).2.counters.shardSets = UInt64.ofNat (d.evict shared groups).1.tracked := by
  unfold evict
  split <;> rfl

/-- A shard that is settled comes to where sets are evicted. -/
theorem receive_gauge (hg : d.geometry.Valid) (hs : d.Settles shared shard b t)
    (hnew : d.behind (d.groupId shard) d.geometry.ring = false) (h : d.receive shared shard = .ok t) :
    t.shared.counters.shardSets = UInt64.ofNat t.decoder.tracked := by
  rw [receive_eq hg, hnew, absorbs_of_settles hs] at h
  simp only [Checked.ok_bind, Bool.false_eq_true, if_false] at h
  obtain ⟨taken, -, h⟩ := Checked.bind_eq_ok.1 h
  cases h
  exact evict_gauge _ _ _

/-- A change of the geometry clears the gauge with the sets. -/
theorem retune_gauge (h : d.retune shared = .ok t) : t.decoder = d ∧ t.shared = shared ∨
    t.decoder.retunes = d.retunes + 1 ∧ t.decoder.sets = [] ∧ t.shared.counters.shardSets = 0 := by
  unfold retune at h
  split at h
  · cases h
    exact .inl ⟨rfl, rfl⟩
  split at h
  · cases h
    exact .inl ⟨rfl, rfl⟩
  split at h
  · obtain ⟨retunes, hadd, h⟩ := Checked.bind_eq_ok.1 h
    cases h
    exact .inr ⟨Checked.eq_add hadd, rfl, rfl⟩
  · cases h
    exact .inl ⟨rfl, rfl⟩

/-- **A packet writes the number of sets behind it, or leaves the gauge and the sets as they are.** -/
theorem decode_gauge (hd : d.Sound) (hf : d.Filed) (h : d.decode shared packet = .ok t) :
    Taking.writes ⟨d, packet, t.decoder, t.recovered⟩ = true ∧
        t.shared.counters.shardSets = UInt64.ofNat t.decoder.tracked ∨
      Taking.writes ⟨d, packet, t.decoder, t.recovered⟩ = false ∧
        t.shared.counters.shardSets = shared.counters.shardSets ∧ t.decoder.sets = d.sets := by
  have hidle : t.decoder.sets = d.sets → t.decoder.retunes = d.retunes →
      Taking.writes ⟨d, packet, t.decoder, t.recovered⟩ = false := by
    intro hsets hretunes
    have hjoins := (Taking.joins_of_sets (k := ⟨d, packet, t.decoder, t.recovered⟩) (.inl hsets)).2
    simp [Taking.writes, hjoins, hretunes]
  cases hparse : Shard.parse packet with
  | error e =>
    rw [decode_of_parse_error hparse] at h
    cases h
    exact .inr ⟨hidle rfl rfl, rfl, rfl⟩
  | ok shard =>
    obtain ⟨-, hbytes, hlong⟩ := parse_eq_ok hparse
    rw [decode_eq hd.valid hparse] at h
    split at h
    · rename_i hplace
      rcases receive_cases (hd.noted shard) shared (by rwa [hbytes]) with ⟨hrec, -⟩ | ⟨hnew, b, t', hrec, hs⟩
      · rw [hrec] at h
        cases h
        exact .inr ⟨hidle rfl rfl, rfl, rfl⟩
      · obtain rfl : t' = t := Except.ok.inj (hrec.symm.trans h)
        have hjoins := (joins_of_settles hd hf hparse hplace hnew hs).joins_eq
        refine .inl ⟨?_, receive_gauge (d := d.noted shard) hd.valid hs hnew hrec⟩
        rw [Taking.writes, hjoins, Bool.true_or]
    · rcases retune_gauge h with ⟨heq, hshared⟩ | ⟨hretunes, hsets, hgauge⟩
      · exact .inr ⟨hidle (by rw [heq]; rfl) (by rw [heq]; rfl), by rw [hshared], by rw [heq]; rfl⟩
      · refine .inl ⟨?_, by rw [hgauge, tracked, hsets]; rfl⟩
        have hretunes' : t.decoder.retunes = d.retunes + 1 := hretunes
        simp [Taking.writes, hretunes']

/-- What is known of a receiver of a session: its sets fit its geometry, are filed in it, and do not lag. -/
structure Kept (d : Decoder) : Prop where
  sound : d.Sound
  filed : d.Filed
  trimmed : d.Trimmed

/-- The number of sets fits into the gauge. -/
theorem Kept.toNat_tracked (h : d.Kept) : (UInt64.ofNat d.tracked).toNat = d.tracked := by
  have hle := (h.trimmed.bounded h.sound.valid).tracked_le
  rw [maxGroupLag] at hle
  exact UInt64.toNat_ofNat_of_lt' (by rw [UInt64.size]; omega)

end Decoder

/-! ### Sessions -/

/-- Whose number the gauge shows. -/
inductive Author where
  /-- No receiver has written yet. -/
  | nobody
  /-- The receiver of a name. -/
  | receiver (name : String)
  /-- A receiver that has been closed, when it tracked so many sets. -/
  | departed (tracked : ℕ)

namespace Session

variable {s : Session} {a : Author} {name : String} {d : Decoder} {size : ℕ}

/-- Closing the receiver of a name. -/
def depart (s : Session) (name : String) : Author → Author
  | .receiver other =>
    if other = name then .departed (((s.receiver? name).map Decoder.tracked).getD 0) else .receiver other
  | a => a

/-- Whose number the gauge shows behind a request. -/
def credit (s : Session) (a : Author) : Request → Author
  | .openReceiver name plan =>
    match Decoder.build plan with
    | .ok _ => s.depart name a
    | .error _ => a
  | .close name => s.depart name a
  | .decode name packet => if (s.taking? (.decode name packet)).any Taking.writes then .receiver name else a
  | _ => a

/-- Whose number the gauge shows behind some requests. -/
def author (s : Session) (a : Author) : List Request → Author
  | [] => a
  | r :: rest => (s.next r).author (s.credit a r) rest

/-- The sets that all receivers track. -/
def tracked (s : Session) : ℕ := (s.receivers.map fun entry => entry.2.tracked).sum

/-- **What the gauge shows.** -/
def Shows (s : Session) : Author → Prop
  | .nobody => s.shared.counters.shardSets.toNat = 0 ∧ ∀ entry ∈ s.receivers, entry.2.sets = []
  | .receiver name => ∃ d, s.receiver? name = some d ∧ s.shared.counters.shardSets.toNat = d.tracked
  | .departed n => s.shared.counters.shardSets.toNat = n

/-- When the gauge counts what all receivers track. -/
def Counts (s : Session) : Author → Prop
  | .nobody => True
  | .receiver name => ∀ entry ∈ s.receivers, entry.1 ≠ name → entry.2.tracked = 0
  | .departed n => s.tracked = n

/-! ### One request -/

theorem endures_kept (size : ℕ) : Endures size (Encoder.Running size) Decoder.Kept where
  built := (endures_filed size).built
  sealed := (endures_filed size).sealed
  made h := by
    obtain ⟨hsound, hfiled⟩ := (endures_filed size).made h
    obtain ⟨g, -, rfl⟩ := Decoder.build_spec h
    exact ⟨hsound, hfiled, Decoder.trimmed_of_idle rfl⟩
  taken h ht := by
    obtain ⟨⟨hsound, hfiled⟩, hsize⟩ := (endures_filed size).taken ⟨h.sound, h.filed⟩ ht
    exact ⟨⟨hsound, hfiled, (Decoder.decode_takes h.sound ht).trimmed h.sound h.trimmed⟩, hsize⟩

theorem next_openReceiver {plan : Plan} (h : Decoder.build plan = .ok d) :
    s.next (.openReceiver name plan) = s.addReceiver name d := by
  simp only [next, perform, h, Checked.ok_bind]
  rfl

theorem next_openReceiver_error {plan : Plan} {e : Error} (h : Decoder.build plan = .error e) :
    s.next (.openReceiver name plan) = s := by
  simp only [next, perform, h]
  rfl

theorem next_decode {packet : Bytes} {t : Decoded} (hreceiver : s.receiver? name = some d)
    (hdec : d.decode s.shared packet = .ok t) : (s.next (.decode name packet)).shared = t.shared ∧
      (s.next (.decode name packet)).receivers = put s.receivers name t.decoder := by
  simp only [next, perform, hreceiver, Session.decode, hdec, Checked.ok_bind]
  exact ⟨rfl, rfl⟩

/-- A packet that no receiver takes leaves the session as it was. -/
theorem next_decode_of_no_taking {packet : Bytes} (h : s.taking? (.decode name packet) = none) :
    s.next (.decode name packet) = s := by
  rw [taking?] at h
  cases hreceiver : s.receiver? name with
  | none =>
    simp only [next, perform, hreceiver]
  | some d =>
    rw [hreceiver] at h
    cases hdec : d.decode s.shared packet with
    | error e =>
      simp only [next, perform, hreceiver, Session.decode, hdec]
      rfl
    | ok t =>
      simp only [hdec] at h
      cases h

/-- What the gauge shows depends on its value and on the receivers alone. -/
theorem Shows.congr {s' : Session} (h : s.Shows a)
    (hgauge : s'.shared.counters.shardSets = s.shared.counters.shardSets) (hreceivers : s'.receivers = s.receivers) :
    s'.Shows a := by
  cases a <;> simpa [Shows, receiver?, hgauge, hreceivers] using h

/-- The receiver of a name is closed, and another one may be opened that tracks nothing. -/
theorem Shows.depart {s' : Session} (h : s.Shows a)
    (hgauge : s'.shared.counters.shardSets = s.shared.counters.shardSets)
    (hkept : ∀ other, other ≠ name → s'.receiver? other = s.receiver? other)
    (hidle : ∀ entry ∈ s'.receivers, entry ∈ s.receivers ∨ entry.2.sets = []) :
    s'.Shows (s.depart name a) := by
  cases a with
  | nobody =>
    obtain ⟨hzero, hnothing⟩ := h
    refine ⟨by rw [hgauge, hzero], fun entry hentry => ?_⟩
    exact (hidle entry hentry).elim (hnothing entry) id
  | receiver other =>
    obtain ⟨d, hd, hshown⟩ := h
    rw [Session.depart]
    split
    · rename_i heq
      rw [← heq, hd]
      exact (congrArg UInt64.toNat hgauge).trans hshown
    · rename_i hne
      exact ⟨d, (hkept other hne).trans hd, (congrArg UInt64.toNat hgauge).trans hshown⟩
  | departed n => exact (congrArg UInt64.toNat hgauge).trans h

/-- A packet that is taken. -/
theorem Shows.decode (h : s.Shows a) (hholds : s.Holds size (Encoder.Running size) Decoder.Kept)
    (name : String) (packet : Bytes) :
    (s.next (.decode name packet)).Shows (s.credit a (.decode name packet)) := by
  rw [credit]
  cases htaking : s.taking? (.decode name packet) with
  | none =>
    rw [next_decode_of_no_taking htaking]
    exact h
  | some k =>
    obtain ⟨_, _, d, t, heq, hreceiver, hdec, rfl, -⟩ := taking_spec htaking
    cases heq
    have hd := hholds.receiver hreceiver
    have ht := ((endures_kept size).taken hd hdec).1
    obtain ⟨hshared, hreceivers⟩ := next_decode hreceiver hdec
    have hself : (s.next (.decode name packet)).receiver? name = some t.decoder := by
      rw [receiver?, hreceivers, lookup_put_self]
    rw [Option.any_some]
    rcases Decoder.decode_gauge hd.sound hd.filed hdec with ⟨hwrites, hgauge⟩ | ⟨hwrites, hgauge, hsets⟩
    · rw [if_pos hwrites]
      refine ⟨t.decoder, hself, ?_⟩
      rw [hshared, hgauge, ht.toNat_tracked]
    · -- the receiver tracks what it has tracked before
      rw [hwrites, if_neg Bool.false_ne_true]
      have hgauge' : (s.next (.decode name packet)).shared.counters.shardSets = s.shared.counters.shardSets := by
        rw [hshared, hgauge]
      cases a with
      | nobody =>
        obtain ⟨hzero, hnothing⟩ := h
        refine ⟨by rw [hgauge', hzero], ?_⟩
        rw [hreceivers]
        refine forall_put (P := fun d : Decoder => d.sets = []) hnothing ?_
        rw [hsets]
        exact hnothing _ (mem_of_lookup hreceiver)
      | receiver other =>
        obtain ⟨d', hd', hshown⟩ := h
        by_cases heq : other = name
        · subst heq
          obtain rfl : d' = d := Option.some.inj (hd'.symm.trans hreceiver)
          refine ⟨t.decoder, hself, ?_⟩
          rw [hgauge', hshown, Decoder.tracked, Decoder.tracked, hsets]
        · refine ⟨d', ?_, by rw [hgauge', hshown]⟩
          rw [receiver?, hreceivers, lookup_put_of_ne heq]
          exact hd'
      | departed n => exact (congrArg UInt64.toNat hgauge').trans h

/-- Requests that do not concern receivers. -/
theorem receivers_next {r : Request} (hdecode : ∀ name packet, r ≠ .decode name packet)
    (hopen : ∀ name plan, r ≠ .openReceiver name plan) (hclose : ∀ name, r ≠ .close name) :
    (s.next r).receivers = s.receivers := by
  rcases next_cases s r with ⟨-, heq⟩ | ⟨answer, hs⟩
  · rw [heq]
  · generalize s.next r = s' at hs
    cases hs with
    | openReceiver => exact absurd rfl (hopen _ _)
    | decode => exact absurd rfl (hdecode _ _)
    | close => exact absurd rfl (hclose _)
    | giveBack =>
      unfold giveBack
      split <;> rfl
    | _ => rfl

/-- **One request.** -/
theorem shows_next (h : s.Shows a) (hholds : s.Holds size (Encoder.Running size) Decoder.Kept) (r : Request) :
    (s.next r).Shows (s.credit a r) := by
  have hfiled : s.Holds size (Encoder.Running size) fun d => d.Sound ∧ d.Filed :=
    { hholds with receivers := fun entry hentry => ⟨(hholds.receivers entry hentry).sound,
        (hholds.receivers entry hentry).filed⟩ }
  have hother : s.taking? r = none → (s.next r).receivers = s.receivers → (s.next r).Shows a := by
    intro htaking hreceivers
    exact h.congr (by rw [counters_next hfiled htaking]) hreceivers
  cases r with
  | openReceiver name plan =>
    rw [credit]
    cases hbuild : Decoder.build plan with
    | error e =>
      rw [next_openReceiver_error hbuild]
      exact h
    | ok d =>
      obtain ⟨g, -, rfl⟩ := Decoder.build_spec hbuild
      rw [next_openReceiver hbuild]
      refine h.depart rfl (fun other hne => lookup_put_of_ne hne) ?_
      intro entry hentry
      rcases List.mem_cons.1 hentry with rfl | hentry
      · exact .inr rfl
      · exact .inl (List.mem_of_mem_filter hentry)
  | close name =>
    refine h.depart rfl (fun other hne => lookup_filter_of_ne hne) ?_
    exact fun entry hentry => .inl (List.mem_of_mem_filter hentry)
  | decode name packet => exact h.decode hholds name packet
  | _ => exact hother rfl (receivers_next nofun nofun nofun)

/-- **Any requests.** -/
theorem shows_after (h : s.Shows a) (hholds : s.Holds size (Encoder.Running size) Decoder.Kept)
    (requests : List Request) : (s.after requests).Shows (s.author a requests) := by
  induction requests generalizing s a with
  | nil => exact h
  | cons r rest ih => exact ih (shows_next h hholds r) (hholds.next (endures_kept size) r)

/-! ### All receivers -/

/-- What the gauge shows is what all receivers track exactly where it counts them. -/
theorem Shows.eq_tracked_iff (h : s.Shows a) (hnames : (s.receivers.map Prod.fst).Nodup) :
    s.shared.counters.shardSets.toNat = s.tracked ↔ s.Counts a := by
  cases a with
  | nobody =>
    obtain ⟨hzero, hnothing⟩ := h
    refine iff_of_true ?_ trivial
    rw [hzero, tracked, eq_comm, List.sum_eq_zero_iff]
    intro n hn
    obtain ⟨entry, hentry, rfl⟩ := List.mem_map.1 hn
    rw [Decoder.tracked, hnothing entry hentry, List.length_nil]
  | receiver name =>
    obtain ⟨d, hd, hshown⟩ := h
    have hlookup : s.receivers.lookup name = some d := hd
    rw [hshown, tracked, sum_split Decoder.tracked hnames name, hlookup, Option.map_some, Option.getD_some, left_eq_add,
      List.sum_eq_zero_iff]
    constructor
    · intro hzero entry hentry hne
      exact hzero _ (List.mem_map_of_mem (List.mem_filter.2 ⟨hentry, by simpa using hne⟩))
    · intro hzero n hn
      obtain ⟨entry, hentry, rfl⟩ := List.mem_map.1 hn
      obtain ⟨hmem, hne⟩ := List.mem_filter.1 hentry
      exact hzero entry hmem (by simpa using hne)
  | departed n =>
    have hshown : s.shared.counters.shardSets.toNat = n := h
    rw [hshown]
    exact eq_comm

/-- **What the gauge shows.** Take a session with new counters on any pool, and any requests of its user. Until a packet
goes into a set, the gauge is zero and nothing is tracked. From then on it shows what the receiver tracks that was the
last one to write, and, when this one is closed, what it tracked then. It is the number of sets that all receivers track
exactly if the others track nothing, or as many as the closed one did. -/
theorem gauge_shows (pool : BufferPool) (requests : List Request) :
    let s := (create pool).after requests
    let author := (create pool).author .nobody requests
    s.Shows author ∧ (s.shared.counters.shardSets.toNat = s.tracked ↔ s.Counts author) := by
  intro s author
  have hnew : (create pool).Holds pool.bufferSize (Encoder.Running pool.bufferSize) Decoder.Kept :=
    holds_new ⟨pool, .zero⟩ _ _
  have hnothing : (create pool).Shows .nobody := ⟨rfl, nofun⟩
  have hshows : s.Shows author := shows_after hnothing hnew requests
  exact ⟨hshows, hshows.eq_tracked_iff (hnew.after (endures_kept _) requests).receiverNames⟩

/-- **The gauge misses sets, and counts sets that are gone.** Two receivers track one set each, and the gauge shows one.
When a receiver is closed, the gauge still shows its set. -/
theorem gauge_misses :
    (∃ s, s = (create (.create 16 8)).after [.openReceiver "a" (.parts ⟨2, 1⟩ 0), .openReceiver "b" (.parts ⟨2, 1⟩ 0),
        .decode "a" [0, 0, 0, 0, 241, 0, 7], .decode "b" [0, 0, 0, 0, 241, 0, 7]] ∧
      s.shared.counters.shardSets = 1 ∧ s.tracked = 2) ∧
    ∃ s, s = (create (.create 16 8)).after [.openReceiver "a" (.parts ⟨2, 1⟩ 0),
        .decode "a" [0, 0, 0, 0, 241, 0, 7], .close "a"] ∧
      s.shared.counters.shardSets = 1 ∧ s.tracked = 0 :=
  ⟨⟨_, rfl, by decide +kernel, by decide +kernel⟩, _, rfl, by decide +kernel, by decide +kernel⟩

end Session

end PacketFec
