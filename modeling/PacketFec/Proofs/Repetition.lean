import Mathlib
import PacketFec.Proofs.Periods
import PacketFec.Proofs.Integrity

/-!
# What is dropped leaves no trace

A receiver drops what is no shard, what stands at a wrong place, what belongs to a group behind the floor, and what its
set absorbs. All it does then is to take note of the shard, unless the shard stands at a wrong place and completes the
evidence for another geometry. A packet that comes again at once is always dropped, and it is not even noted again: the
first time has raised the floor to its group at most, has kept its set, and has filled its slot or drained the set.

* `PulseLog.sample_sample`: **a pulse that is noted again changes nothing**, wherever the anchor stands.
* `Decoder.StartsOver`: the packets that change the geometry.
* `Decoder.Unwanted`: the reasons to drop a shard.
* `Decoder.decode_unwanted`, `Decoder.decode_again`: what is dropped, and what comes again.
* `Decoder.drops_leave_no_trace`: **both of it, for every receiver and every packet.**
* `Decoder.late_shard_starts_over`: a shard behind the floor that changes the geometry.
-/

namespace PacketFec

/-! ### The log -/

namespace PulseLog

theorem write_write (log : PulseLog) (p : Pulse) : (log.write p).write p = log.write p := by
  unfold write
  simp only [Vector.set_set]

/-- **A pulse that is noted again changes nothing.** -/
theorem sample_sample (log : PulseLog) (bit : Bool) (seq : UInt32) :
    (log.sample bit seq).sample bit seq = log.sample bit seq := by
  have hpos : 0 < pulseWindow := by decide
  have hself : (seq - seq).toNat = 0 := by rw [UInt32.sub_self]; rfl
  have hanchored := anchored_sample log bit seq
  rcases sample_cases log bit seq with ⟨heq, -⟩ | ⟨heq, -, hnear⟩ | ⟨heq, -, -⟩
  · -- the anchor is now the start of the window of the pulse, or the pulse itself
    rw [heq] at hanchored ⊢
    rw [sample_of_near hanchored, write_write]
    rw [anchor_write, anchor_reanchor]
    split
    · exact hself.trans_le hpos.le
    · rw [toNat_sub_windowBase_self]
      exact (Nat.mod_lt _ hpos).le
  · -- the anchor is the old one, or the pulse itself
    rw [heq] at hanchored ⊢
    rw [sample_of_near hanchored, write_write]
    rw [anchor_write]
    split
    · exact hself.trans_le hpos.le
    · exact hnear
  · rw [heq, heq]

end PulseLog

namespace Decoder

variable {d : Decoder} {shared : Shared} {t : Decoded} {packet : Bytes} {shard : Shard}

/-! ### Packets that are dropped -/

/-- A packet that changes the geometry: a shard at a wrong place, with which the log names another geometry. -/
def StartsOver (d : Decoder) (packet : Bytes) : Prop :=
  ∃ shard g, Shard.parse packet = .ok shard ∧ ¬ d.InPlace shard ∧ (d.noted shard).detected? = some g ∧ g ≠ d.geometry

/-- Why a receiver does not want a shard. -/
inductive Unwanted (d : Decoder) (shard : Shard) : Prop
  /-- Its kind is not that of its place. -/
  | misplaced (h : ¬ d.InPlace shard)
  /-- Its group is behind the floor. -/
  | late (h : d.behind (d.groupId shard) d.geometry.ring = true)
  /-- The set of its group is drained. -/
  | spent (set : ShardSet) (hset : d.sets.get? (d.groupId shard) = some set) (h : set.drained = true)
  /-- The set of its group holds a shard in its slot, be it the same or not. -/
  | held (set : ShardSet) (b : Buffer) (hset : d.sets.get? (d.groupId shard) = some set)
      (h : set.slots[d.position shard]? = some (some b))

theorem absorbs_of_spent {set : ShardSet} (hset : d.sets.get? (d.groupId shard) = some set)
    (h : set.drained = true) : (d.setOf shard).absorbs (d.position shard) = .ok true := by
  rw [setOf, hset, Option.getD_some, ShardSet.absorbs, if_pos h]

theorem absorbs_of_held {set : ShardSet} {b : Buffer} (hset : d.sets.get? (d.groupId shard) = some set)
    (h : set.slots[d.position shard]? = some (some b)) :
    (d.setOf shard).absorbs (d.position shard) = .ok true := by
  rw [setOf, hset, Option.getD_some, ShardSet.absorbs, h]
  split <;> rfl

/-- A shard at its place that is behind the floor or absorbed is noted, and that is all. -/
theorem decode_dropped (hd : d.Sound) (hparse : Shard.parse packet = .ok shard) (hplace : d.InPlace shard)
    (hold : d.behind (d.groupId shard) d.geometry.ring = true ∨
      (d.setOf shard).absorbs (d.position shard) = .ok true) (shared : Shared) :
    d.decode shared packet = .ok ⟨d.noted shard, shared, []⟩ := by
  obtain ⟨-, hbytes, hlong⟩ := parse_eq_ok hparse
  refine ((decode_eq hd.valid hparse shared).trans (if_pos hplace)).trans ?_
  rcases receive_cases (hd.noted shard) shared (by rwa [hbytes]) with ⟨hrec, -⟩ | ⟨hnew, b, t, -, hs⟩
  · exact hrec
  -- neither a late shard nor an absorbed one is put into a set
  · rcases hold with hbehind | habs
    · have hnew' : d.behind (d.groupId shard) d.geometry.ring = false := hnew
      rw [hnew'] at hbehind
      cases hbehind
    · have hvacant : (d.setOf shard).absorbs (d.position shard) = .ok false :=
        absorbs_of_settles (d := d.noted shard) hs
      rw [hvacant] at habs
      cases habs

/-- A shard at a wrong place is noted, and that is all, where the log names no other geometry. -/
theorem decode_misplaced (hd : d.Sound) (hparse : Shard.parse packet = .ok shard) (hplace : ¬ d.InPlace shard)
    (hkept : ∀ g, (d.noted shard).detected? = some g → g = d.geometry) (shared : Shared) :
    d.decode shared packet = .ok ⟨d.noted shard, shared, []⟩ := by
  refine ((decode_eq hd.valid hparse shared).trans (if_neg hplace)).trans ?_
  unfold retune
  cases hdet : (d.noted shard).detected? with
  | none => rfl
  | some g => exact if_pos (hkept g hdet)

/-- **A shard that is not wanted is noted, and that is all**, unless it changes the geometry. -/
theorem decode_unwanted (hd : d.Sound) (hparse : Shard.parse packet = .ok shard) (hun : d.Unwanted shard)
    (hstay : ¬ d.StartsOver packet) (shared : Shared) :
    d.decode shared packet = .ok ⟨d.noted shard, shared, []⟩ := by
  by_cases hplace : d.InPlace shard
  · apply decode_dropped hd hparse hplace
    cases hun with
    | misplaced h => exact absurd hplace h
    | late h => exact .inl h
    | spent set hset h => exact .inr (absorbs_of_spent hset h)
    | held set b hset h => exact .inr (absorbs_of_held hset h)
  · refine decode_misplaced hd hparse hplace ?_ shared
    intro g hdet
    by_contra hne
    exact hstay ⟨shard, g, hparse, hplace, hdet, hne⟩

/-! ### Packets that come again -/

theorem noted_noted (d : Decoder) (shard : Shard) : (d.noted shard).noted shard = d.noted shard := by
  unfold noted
  simp only [PulseLog.sample_sample]

/-- Behind a shard that has been put into its set, the set absorbs its place: it is drained, or holds the shard. -/
theorem absorbs_behind {b : Buffer} (hd : d.Sound) (hnew : d.behind (d.groupId shard) d.geometry.ring = false)
    (hs : (d.noted shard).Settles shared shard b t) :
    (t.decoder.setOf shard).absorbs (t.decoder.position shard) = .ok true := by
  have hget : t.decoder.sets.get? (t.decoder.groupId shard) = some (d.filled shard b) := by
    have hdec := get?_of_settles hd.valid hnew hs
    rwa [hs.decoder_eq] at hdec ⊢
  by_cases hfull : d.geometry.data ≤ (d.setOf shard).members + 1
  · -- the shard has been the last one wanted
    refine absorbs_of_spent hget ?_
    rw [filled_of_le hfull]
    rfl
  · refine absorbs_of_held (b := b) hget ?_
    have hvacant : (d.setOf shard).slots[d.position shard]? = some none := hs.vacant
    have hlt := (List.getElem?_eq_some_iff.1 hvacant).1
    rw [filled_of_lt (by omega), hs.decoder_eq]
    exact List.getElem?_set_self hlt

/-- **A packet that comes again changes nothing**, if it has not changed the geometry. -/
theorem decode_again (hd : d.Sound) (hdec : d.decode shared packet = .ok t) (hstay : ¬ d.StartsOver packet)
    (shared' : Shared) : t.decoder.decode shared' packet = .ok ⟨t.decoder, shared', []⟩ := by
  have ht := decode_takes hd hdec
  have hsound := ht.sound hd
  cases ht with
  | refused e hparse hdec hrec => exact decode_of_parse_error hparse _ _
  | dropped shard hparse hplace hold hdec hrec =>
    rw [hdec] at hsound ⊢
    rw [decode_dropped hsound hparse hplace hold, noted_noted]
  | settled shard b hparse hplace hnew hs =>
    -- the second time the shard takes another way out: its set absorbs it
    have hnoted : t.decoder.noted shard = t.decoder := by
      rw [hs.decoder_eq]
      simp only [noted, settled, PulseLog.sample_sample]
    have hplace' : t.decoder.InPlace shard := by rwa [hs.decoder_eq]
    rw [decode_dropped hsound hparse hplace' (.inr (absorbs_behind hd hnew hs)), hnoted]
  | kept shard hparse hplace hkept hdec hrec =>
    rw [hdec] at hsound ⊢
    rw [decode_misplaced hsound hparse hplace (by rwa [noted_noted]), noted_noted]
  | retuned shard g hparse hplace hdet hne hdec hrec => exact absurd ⟨shard, g, hparse, hplace, hdet, hne⟩ hstay

/-! ### Every receiver and every packet -/

/-- The geometry changes, and the change is counted, exactly behind a packet that starts the receiver over. -/
theorem retunes_eq_iff (hd : d.Sound) (hdec : d.decode shared packet = .ok t) :
    t.decoder.retunes = d.retunes ↔ ¬ d.StartsOver packet := by
  have hnot : ∀ {shard}, Shard.parse packet = .ok shard →
      (d.InPlace shard ∨ ∀ g, (d.noted shard).detected? = some g → g = d.geometry) → ¬ d.StartsOver packet := by
    rintro shard hparse hstays ⟨shard', g, hparse', hplace, hdet, hne⟩
    obtain rfl : shard = shard' := Except.ok.inj (hparse.symm.trans hparse')
    rcases hstays with hin | hkept
    · exact hplace hin
    · exact hne (hkept g hdet)
  cases decode_takes hd hdec with
  | refused e hparse hdec hrec =>
    refine iff_of_true (by rw [hdec]) ?_
    rintro ⟨shard, -, hparse', -⟩
    rw [hparse] at hparse'
    cases hparse'
  | dropped shard hparse hplace hold hdec hrec => exact iff_of_true (by rw [hdec]; rfl) (hnot hparse (.inl hplace))
  | settled shard b hparse hplace hnew hs =>
    exact iff_of_true (by rw [hs.decoder_eq]; rfl) (hnot hparse (.inl hplace))
  | kept shard hparse hplace hkept hdec hrec => exact iff_of_true (by rw [hdec]; rfl) (hnot hparse (.inr hkept))
  | retuned shard g hparse hplace hdet hne hdec hrec =>
    refine iff_of_false ?_ (not_not_intro ⟨shard, g, hparse, hplace, hdet, hne⟩)
    rw [hdec]
    exact Nat.succ_ne_self _

/-- A packet that does not start the receiver over is taken without a fault. -/
theorem decode_returns (hd : d.Sound) (hstay : ¬ d.StartsOver packet) (shared : Shared) :
    ∃ t, d.decode shared packet = .ok t := by
  cases hparse : Shard.parse packet with
  | error e => exact ⟨_, decode_of_parse_error hparse d shared⟩
  | ok shard =>
    by_cases hplace : d.InPlace shard
    · obtain ⟨-, hbytes, hlong⟩ := parse_eq_ok hparse
      rw [(decode_eq hd.valid hparse shared).trans (if_pos hplace)]
      rcases receive_cases (hd.noted shard) shared (by rwa [hbytes]) with ⟨hrec, -⟩ | ⟨-, b, t, hrec, -⟩
      · exact ⟨_, hrec⟩
      · exact ⟨t, hrec⟩
    · refine ⟨_, decode_misplaced hd hparse hplace ?_ shared⟩
      intro g hdet
      by_contra hne
      exact hstay ⟨shard, g, hparse, hplace, hdet, hne⟩

/-- What a packet leaves behind that is dropped, and what one leaves behind that comes again. The pool and the counters
are the shared state, which a drop gives back as it was. -/
structure Traceless (d : Decoder) (packet : Bytes) : Prop where
  /-- What is no shard changes nothing. -/
  malformed : ∀ e, Shard.parse packet = .error e → ∀ shared, d.decode shared packet = .ok ⟨d, shared, []⟩
  /-- What is not wanted changes the log. -/
  unwanted : ∀ shard, Shard.parse packet = .ok shard → d.Unwanted shard → ¬ d.StartsOver packet →
    ∀ shared, d.decode shared packet = .ok ⟨d.noted shard, shared, []⟩
  /-- What comes again changes nothing, whatever the first time has done. -/
  again : ¬ d.StartsOver packet → ∀ shared, ∃ t, d.decode shared packet = .ok t ∧
    ∀ shared', t.decoder.decode shared' packet = .ok ⟨t.decoder, shared', []⟩
  /-- The exception is a packet that changes the geometry. -/
  startsOver_iff : ∀ shared t, d.decode shared packet = .ok t →
    (t.decoder.retunes = d.retunes ↔ ¬ d.StartsOver packet)

/-- **What a receiver drops leaves no trace but in the log, and what comes again leaves none at all**, for every
receiver and every packet that does not change the geometry. -/
theorem drops_leave_no_trace (h : d.Reached) (packet : Bytes) : d.Traceless packet where
  malformed _ hparse := decode_of_parse_error hparse d
  unwanted _ hparse hun hstay := decode_unwanted h.sound hparse hun hstay
  again hstay shared := by
    obtain ⟨t, hdec⟩ := decode_returns h.sound hstay shared
    exact ⟨t, hdec, decode_again h.sound hdec hstay⟩
  startsOver_iff _ _ hdec := retunes_eq_iff h.sound hdec

set_option maxRecDepth 20000 in
/-- A receiver that holds a shard of its first group, and a shard with the same sequence id and another body: it is
not wanted, and it does not start the receiver over. -/
theorem drops_leave_no_trace_of_conflict : ∃ d₀ d shared' shard, create ⟨2, 1⟩ = .ok d₀ ∧
    d₀.after ⟨.create 16 8, .zero⟩ [[0, 0, 0, 0, 241, 0, 7]] = .ok (d, shared') ∧
    Shard.parse [0, 0, 0, 0, 241, 0, 9] = .ok shard ∧ d.Reached ∧ d.Unwanted shard ∧
    ¬ d.StartsOver [0, 0, 0, 0, 241, 0, 9] ∧ d.Traceless [0, 0, 0, 0, 241, 0, 9] := by
  obtain ⟨d₀, d, shared', shard, set, b, hnew, hafter, hparse, hset, hheld, hplace⟩ : ∃ d₀ d shared' shard set b,
      create ⟨2, 1⟩ = .ok d₀ ∧ d₀.after ⟨.create 16 8, .zero⟩ [[0, 0, 0, 0, 241, 0, 7]] = .ok (d, shared') ∧
      Shard.parse [0, 0, 0, 0, 241, 0, 9] = .ok shard ∧ d.sets.get? (d.groupId shard) = some set ∧
      set.slots[d.position shard]? = some (some b) ∧
      (d.position shard < d.geometry.data ∧ shard.kind = .data) :=
    ⟨_, _, _, _, _, _, rfl, rfl, rfl, rfl, rfl, by decide⟩
  have hreached : d.Reached := Reached.after ⟨_, _, hnew, .refl⟩ hafter
  refine ⟨d₀, d, shared', shard, hnew, hafter, hparse, hreached, .held set b hset hheld, ?_,
    drops_leave_no_trace hreached _⟩
  rintro ⟨shard', g, hparse', hmis, -, -⟩
  obtain rfl : shard = shard' := Except.ok.inj (hparse.symm.trans hparse')
  exact hmis (iff_of_true hplace.1 hplace.2)

set_option maxRecDepth 20000 in
/-- The kind of a shard is looked at before its group is. So a shard behind the floor can change the geometry: here
one of the first group, which comes late and whose kind is not that of its place, completes what the log needs to name
other lengths. -/
theorem late_shard_starts_over : ∃ d₀ d shared' shard t, create ⟨2, 1⟩ = .ok d₀ ∧
    d₀.after ⟨.create 16 8, .zero⟩ [[0, 0, 0, 0, 241, 0, 7], [2, 0, 0, 0, 241, 0, 7], [3, 0, 0, 0, 242, 0, 7],
      [4, 0, 0, 0, 241, 0, 7]] = .ok (d, shared') ∧
    Shard.parse [1, 0, 0, 0, 242, 0, 7] = .ok shard ∧ d.behind (d.groupId shard) d.geometry.ring = true ∧
    d.decode shared' [1, 0, 0, 0, 242, 0, 7] = .ok t ∧ d.floor = some 1 ∧ d.tracked = 2 ∧ d.retunes = 0 ∧
    t.decoder.geometry = ⟨1, 1⟩ ∧ t.decoder.floor = none ∧ t.decoder.tracked = 0 ∧ t.decoder.retunes = 1 :=
  ⟨_, _, _, _, _, rfl, rfl, rfl, by decide +kernel, rfl, by decide +kernel⟩

end Decoder

end PacketFec
