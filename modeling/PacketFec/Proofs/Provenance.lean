import Mathlib
import PacketFec.Proofs.Periods

/-!
# Where the pulses of a log come from

Each slot of a log holds a pulse that was noted and belongs there, or it has been cleared to the start of a window. A
cleared slot looks like a parity pulse, but its id is that of a first slot. Behind the first slot no neighbour has the
id that follows, so a run that the log reports, with the pulse behind it, has no cleared slot in it. This needs nothing
of the pulses: they may come in any order, jump, and clear the log as often as they like.

* `PulseLog.Sourced`: a log whose pulses come from some source.
* `PulseLog.Sourced.sample`, `PulseLog.sourced_fed`: **taking note of pulses of the source keeps that.**
* `PulseLog.FirstRun.sourced`: **a reported run, with the pulse behind it, comes from the source.**
* `PulseLog.sample_stored`: a pulse that is not behind the anchor is stored.
* `PulseLog.periods_are_backed`: **what every log reports has been fed to it.**
-/

namespace PacketFec.PulseLog

variable {log : PulseLog} {P : Pulse → Prop} {p : Pulse} {seq : UInt32} {bit : Bool} {i n : ℕ}

/-- A log whose pulses come from a source. Each slot has a pulse of the source that belongs there, or it has been
cleared. -/
def Sourced (log : PulseLog) (P : Pulse → Prop) : Prop :=
  ∀ i < pulseWindow, P (log.slot i) ∧ (log.slot i).seq.toNat % pulseWindow = i ∨
    (log.slot i).bit = false ∧ (log.slot i).seq.toNat % pulseWindow = 0

/-! ### Taking note of pulses -/

theorem sourced_replicate (hseq : seq.toNat % pulseWindow = 0) (anchored : Bool) (P : Pulse → Prop) :
    Sourced ⟨.replicate pulseWindow ⟨false, seq⟩, anchored⟩ P := by
  intro i hi
  rw [slot_replicate _ _ hi]
  exact .inr ⟨rfl, hseq⟩

theorem Sourced.write (h : log.Sourced P) (hp : P p) : (log.write p).Sourced P := by
  intro i hi
  rw [slot_write log p hi]
  split
  · rename_i heq
    exact .inl ⟨hp, heq.symm⟩
  · exact h i hi

/-- Taking note of a pulse of the source. -/
theorem Sourced.sample (h : log.Sourced P) (hp : P ⟨bit, seq⟩) : (log.sample bit seq).Sourced P := by
  rcases sample_cases log bit seq with ⟨heq, -⟩ | ⟨heq, -⟩ | ⟨heq, -⟩
  · rw [heq]
    exact (sourced_replicate (toNat_windowBase seq) true P).write hp
  · rw [heq]
    exact h.write hp
  · rw [heq]
    exact h

/-- The log behind some pulses. -/
def fed (pulses : List Pulse) : PulseLog := pulses.foldl (fun log p => log.sample p.bit p.seq) .empty

theorem fed_concat (pulses : List Pulse) (bit : Bool) (seq : UInt32) :
    fed (pulses ++ [⟨bit, seq⟩]) = (fed pulses).sample bit seq := by
  rw [fed, List.foldl_append]
  rfl

/-- **The pulses of a log are those that were fed to it.** -/
theorem sourced_fed (pulses : List Pulse) : (fed pulses).Sourced (· ∈ pulses) := by
  have hrun : ∀ (l : List Pulse) (log : PulseLog), log.Sourced (· ∈ pulses) → (∀ p ∈ l, p ∈ pulses) →
      (l.foldl (fun log p => log.sample p.bit p.seq) log).Sourced (· ∈ pulses) := by
    intro l
    induction l with
    | nil =>
      intro log h _
      exact h
    | cons p rest ih =>
      intro log h hl
      exact ih _ (h.sample (hl p List.mem_cons_self)) fun q hq => hl q (List.mem_cons_of_mem p hq)
  exact hrun pulses .empty (sourced_replicate rfl false _) fun _ hp => hp

theorem anchored_fed {pulses : List Pulse} (h : pulses ≠ []) : (fed pulses).anchored = true := by
  rcases List.eq_nil_or_concat pulses with rfl | ⟨front, p, rfl⟩
  · exact absurd rfl h
  · rw [List.concat_eq_append, fed_concat]
    exact anchored_sample _ _ _

/-! ### Runs -/

/-- Neighbours behind the first slot that follow one another come from the source. -/
theorem Sourced.neighbours (h : log.Sourced P) (hpos : 0 < i) (hi : i + 1 < pulseWindow)
    (hseq : (log.slot i).seq + 1 = (log.slot (i + 1)).seq) :
    (P (log.slot i) ∧ (log.slot i).seq.toNat % pulseWindow = i) ∧
      (P (log.slot (i + 1)) ∧ (log.slot (i + 1)).seq.toNat % pulseWindow = i + 1) := by
  have hstep := toNat_succ (log.slot i).seq
  rw [hseq] at hstep
  have hleft := h i (Nat.lt_of_succ_lt hi)
  have hright := h (i + 1) hi
  rw [pulseWindow] at hi hstep hleft hright ⊢
  -- the id of a cleared slot starts a window, and that behind it belongs into the second slot
  refine ⟨⟨?_, ?_⟩, ?_, ?_⟩
  · rcases hleft with ⟨hp, -⟩ | ⟨-, hzero⟩
    · exact hp
    · omega
  · omega
  · rcases hright with ⟨hp, -⟩ | ⟨-, hzero⟩
    · exact hp
    · omega
  · omega

/-- The ids of a run, and of the pulse behind it, follow one another. -/
theorem FirstRun.seq_eq (hrun : log.FirstRun bit i n) {k : ℕ} (hk : k ≤ n) :
    (log.slot (i + k)).seq = (log.slot i).seq + UInt32.ofNat k := by
  induction k with
  | zero => exact (UInt32.add_zero _).symm
  | succ k ih =>
    rw [← Nat.add_assoc, ← hrun.follows k hk, ih (Nat.le_of_succ_le hk), UInt32.ofNat_add, UInt32.add_assoc]
    rfl

/-- **A reported run, with the pulse behind it, comes from the source**, and each of its pulses belongs where it stands. -/
theorem FirstRun.sourced (h : log.Sourced P) (hrun : log.FirstRun bit i n) {k : ℕ} (hk : k ≤ n) :
    P (log.slot (i + k)) ∧ (log.slot (i + k)).seq.toNat % pulseWindow = i + k := by
  have hpos := hrun.pos
  have hlen := hrun.length_pos
  have hfits := hrun.fits
  cases k with
  | zero => exact (h.neighbours hpos (by omega) (hrun.follows 0 hlen)).1
  | succ k => exact (h.neighbours (i := i + k) (by omega) (by omega) (hrun.follows k hk)).2

/-- A run of `n` pulses of a kind among some pulses, from the id `s` on, with a pulse of the other kind behind it. -/
structure RunAmong (pulses : List Pulse) (bit : Bool) (s : UInt32) (n : ℕ) : Prop where
  run : ∀ k < n, ⟨bit, s + UInt32.ofNat k⟩ ∈ pulses
  edge : ⟨!bit, s + UInt32.ofNat n⟩ ∈ pulses

/-- The run that a log reports is among the pulses that were fed to it. -/
theorem FirstRun.among {pulses : List Pulse} (hrun : (fed pulses).FirstRun bit i n) :
    RunAmong pulses bit ((fed pulses).slot i).seq n := by
  have hpulse : ∀ k ≤ n, ⟨((fed pulses).slot (i + k)).bit, ((fed pulses).slot i).seq + UInt32.ofNat k⟩ ∈ pulses := by
    intro k hk
    rw [← hrun.seq_eq hk]
    exact (hrun.sourced (sourced_fed pulses) hk).1
  refine ⟨?_, ?_⟩
  · intro k hk
    rw [← hrun.kind k hk]
    exact hpulse k hk.le
  · rw [← Bool.eq_not.2 hrun.closes]
    exact hpulse n le_rfl

/-! ### The anchor -/

/-- The anchor starts a window, whether its slot has been cleared or not. -/
theorem Sourced.anchor_mod (h : log.Sourced P) : log.anchor.toNat % pulseWindow = 0 := by
  rw [anchor_eq]
  rcases h 0 (by decide) with ⟨-, hplace⟩ | ⟨-, hplace⟩
  · exact hplace
  · exact hplace

/-- **A pulse that is not behind the anchor is stored**, and then the anchor is less than a window behind it. -/
theorem sample_stored (hanchor : log.anchor.toNat % pulseWindow = 0)
    (hnot : log.anchored = false ∨ 0 ≤ Serial.seqDistance seq log.anchor) (bit : Bool) :
    (log.sample bit seq).pulseAt seq = ⟨bit, seq⟩ ∧ (seq - (log.sample bit seq).anchor).toNat < pulseWindow := by
  have hlt : seq.toNat % pulseWindow < pulseWindow := Nat.mod_lt _ (by decide)
  have hself : (seq - seq).toNat < pulseWindow := by rw [UInt32.sub_self]; decide
  have hstored : ∀ log : PulseLog, (log.write ⟨bit, seq⟩).pulseAt seq = ⟨bit, seq⟩ := by
    intro log
    rw [pulseAt_eq, slot_write _ _ hlt, if_pos rfl]
  rcases sample_cases log bit seq with ⟨heq, -⟩ | ⟨heq, -, hnear⟩ | ⟨-, hanchored, hbehind⟩
  · rw [heq, anchor_write, anchor_reanchor]
    refine ⟨hstored _, ?_⟩
    split
    · exact hself
    · rw [toNat_sub_windowBase_self]
      exact hlt
  · rw [heq, anchor_write]
    refine ⟨hstored _, ?_⟩
    split
    · exact hself
    · -- a window ahead of the anchor stands the first slot again
      rename_i hplace
      have hseq := seq.toNat_lt
      have hbase := log.anchor.toNat_lt
      rw [UInt32.toNat_sub] at hnear ⊢
      rw [pulseWindow] at hanchor hnear hplace ⊢
      simp only at hplace
      omega
  · have hdist := Serial.seqDistance_eq seq log.anchor
    rw [if_neg (by omega)] at hdist
    have hword := (seq - log.anchor).toNat_lt
    rcases hnot with hnot | hnot
    · rw [hanchored] at hnot
      cases hnot
    · omega

/-- A pulse behind the anchor is ignored. -/
theorem sample_of_behind (hanchored : log.anchored = true) (hbehind : Serial.seqDistance seq log.anchor < 0)
    (bit : Bool) : log.sample bit seq = log := by
  have hfar : ¬ Serial.seqDistance seq log.anchor > pulseWindow := by omega
  rw [sample, hanchored]
  simp only [Bool.not_true, Bool.false_or, decide_eq_true_eq, if_neg hfar, if_pos hbehind]

/-! ### Every log -/

/-- **What every log reports has been fed to it.** Feed any pulses to a new log, in any order and with any jumps. Where
it then reports a period, that is at least 1 and at most 254, and among the pulses is a run of that many of the kind,
whose ids follow one another, with a pulse of the other kind behind it. Two periods, one of each kind, come to 254 at
most. The anchor always starts a window, and the next pulse is stored if it is the first one or is not behind the anchor,
which is then at most 255 behind it. Otherwise it changes nothing. -/
theorem periods_are_backed (pulses : List Pulse) :
    (∀ bit n, (fed pulses).findPeriod bit = some n → 1 ≤ n ∧ n ≤ 254 ∧ ∃ s, RunAmong pulses bit s n) ∧
    (∀ d p, (fed pulses).findPeriod true = some d → (fed pulses).findPeriod false = some p → d + p ≤ 254) ∧
    (fed pulses).anchor.toNat % 256 = 0 ∧
    (∀ bit seq, pulses = [] ∨ 0 ≤ Serial.seqDistance seq (fed pulses).anchor →
      (fed (pulses ++ [⟨bit, seq⟩])).pulseAt seq = ⟨bit, seq⟩ ∧
        (seq - (fed (pulses ++ [⟨bit, seq⟩])).anchor).toNat ≤ 255) ∧
    ∀ bit seq, pulses ≠ [] → Serial.seqDistance seq (fed pulses).anchor < 0 →
      fed (pulses ++ [⟨bit, seq⟩]) = fed pulses := by
  have hwindow : pulseWindow = 256 := rfl
  have hanchor := (sourced_fed pulses).anchor_mod
  refine ⟨?_, ?_, hanchor, ?_, ?_⟩
  · intro bit n hperiod
    obtain ⟨i, hrun⟩ := findPeriod_eq_some_iff.1 hperiod
    have hpos := hrun.pos
    have hfits := hrun.fits
    exact ⟨hrun.length_pos, by omega, _, hrun.among⟩
  · intro d p hd hp
    have hsum := periods_add_le hd hp
    omega
  · intro bit seq hnot
    rw [fed_concat]
    obtain ⟨hstored, hlag⟩ := sample_stored hanchor (hnot.imp_left fun hnil => by rw [hnil]; rfl) bit
    exact ⟨hstored, by omega⟩
  · intro bit seq hne hbehind
    rw [fed_concat]
    exact sample_of_behind (anchored_fed hne) hbehind bit

/-- A pulse far ahead clears the log, one behind the anchor is ignored, and three groups later both counts of the sender
are reported, each from pulses that were fed. -/
theorem periods_are_backed_behind_jump :
    (∃ s, RunAmong [⟨true, 5⟩, ⟨false, 1000⟩, ⟨true, 1001⟩, ⟨true, 1002⟩, ⟨false, 700⟩, ⟨false, 1003⟩, ⟨true, 1004⟩]
      true s 2) ∧
    (∃ s, RunAmong [⟨true, 5⟩, ⟨false, 1000⟩, ⟨true, 1001⟩, ⟨true, 1002⟩, ⟨false, 700⟩, ⟨false, 1003⟩, ⟨true, 1004⟩]
      false s 1) ∧
    (fed [⟨true, 5⟩, ⟨false, 1000⟩, ⟨true, 1001⟩]).pulseAt 1001 = ⟨true, 1001⟩ ∧
    fed [⟨true, 1000⟩, ⟨false, 700⟩] = fed [⟨true, 1000⟩] := by
  obtain ⟨hruns, -, -, -, -⟩ := periods_are_backed
    [⟨true, 5⟩, ⟨false, 1000⟩, ⟨true, 1001⟩, ⟨true, 1002⟩, ⟨false, 700⟩, ⟨false, 1003⟩, ⟨true, 1004⟩]
  obtain ⟨-, -, -, hstored, -⟩ := periods_are_backed [⟨true, 5⟩, ⟨false, 1000⟩]
  obtain ⟨-, -, -, -, hbehind⟩ := periods_are_backed [⟨true, 1000⟩]
  exact ⟨(hruns true 2 (by decide +kernel)).2.2, (hruns false 1 (by decide +kernel)).2.2,
    (hstored true 1001 (.inr (by decide +kernel))).1, hbehind false 700 (by decide) (by decide +kernel)⟩

end PacketFec.PulseLog
