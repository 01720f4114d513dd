import Mathlib
import PacketFec.Proofs.CleanStart
import PacketFec.Proofs.Detection

/-!
# A log that rolls over

A log that hears a stream without loss fills one window after the other. While a new window overwrites the one before,
its slots hold a new beginning and an old end, and where they meet a pulse stands behind one that it did not follow in
the stream. Every other edge between two kinds is the start of a run of the stream. The scan of the log checks that
the pulses of a run follow one another, but not that the first of them follows the pulse in front of it. So an edge at
the seam counts as the start of a run, and what is reported there is the rest of one.

* `PulseLog.hearing`: the log of a stream, without loss.
* `PulseLog.Rolls`, `PulseLog.rolls_hearing`: **what its slots hold at every moment**, also where sequence ids wrap.
* `PulseLog.FirstRun.length_eq`: an edge is the start of a run unless the slot in front of it says otherwise.
* `PulseLog.lossless_reports`: **what is reported at every moment**, and when it is the geometry of the stream.
* `PulseLog.lossless_misread`: a stream of which a rest of a run is reported.
-/

namespace PacketFec

namespace Geometry

variable {g : Geometry} {x m : ℕ} {bit : Bool}

/-- Sequence ids wrap at the very end of the words of 32 bits. -/
theorem lt_ceiling_add_total (hg : g.Valid) : seqidLimit - 1 < g.ceiling + g.total := by
  have hdiv := Nat.div_add_mod (seqidLimit - 1) g.total
  have hmod := Nat.mod_lt (seqidLimit - 1) (total_pos hg)
  rw [ceiling, ring, Nat.mul_comm]
  omega

/-- The next sequence id of a stream is the next word, or zero at the ceiling. -/
theorem seqidAt_succ (hg : g.Valid) (base n : ℕ) :
    (g.seqidAt base (n + 1)).toNat = (g.seqidAt base n).toNat + 1 ∨
      (g.seqidAt base (n + 1)).toNat = 0 ∧ (g.seqidAt base n).toNat + 1 = g.ceiling := by
  have hlt := Nat.mod_lt (base + n) (ceiling_pos hg)
  have hc := ceiling_pos hg
  rw [toNat_seqidAt hg, toNat_seqidAt hg, ← Nat.add_assoc, Nat.add_mod_eq_ite]
  rcases Nat.lt_or_ge 1 g.ceiling with hone | hone
  · rw [Nat.mod_eq_of_lt hone]
    split <;> omega
  · -- there are more sequence ids than that
    have hfar := lt_ceiling_add_total hg
    have hsize := total_le_256 hg
    rw [seqidLimit] at hfar
    omega

/-- The kind at a position depends on its place in the group alone. -/
theorem isDataAt_congr {y : ℕ} (h : x ≡ y [MOD g.total]) : g.isDataAt x = g.isDataAt y := by
  rw [isDataAt, isDataAt, h]

/-- A position and its sequence id are of one kind. -/
theorem isDataAt_seqidAt (hg : g.Valid) {base : ℕ} (hdvd : g.total ∣ base) (x : ℕ) :
    g.isDataAt (g.seqidAt base x).toNat = g.isDataAt x :=
  isDataAt_congr (seqidAt_mod hg hdvd x)

end Geometry

namespace PulseLog

open PacketFec.Geometry

variable {log : PulseLog} {g : Geometry} {p : Pulse} {base s s' i m n : ℕ} {bit : Bool}

/-- The log of a stream, without loss, behind its first `n` pulses. -/
def hearing (g : Geometry) (base n : ℕ) : PulseLog :=
  (List.range n).foldl (fun log x => log.sample (g.isDataAt x) (g.seqidAt base x)) .empty

@[simp] theorem hearing_zero (g : Geometry) (base : ℕ) : hearing g base 0 = .empty := rfl

theorem hearing_succ (g : Geometry) (base n : ℕ) :
    hearing g base (n + 1) = (hearing g base n).sample (g.isDataAt n) (g.seqidAt base n) := by
  simp [hearing, List.range_succ]

/-! ### The first run of a kind -/

theorem FirstRun.runStart_le (h : log.Logs g) (hrun : log.FirstRun bit i m) :
    g.runStart bit ≤ (log.slot i).seq.toNat % g.total := by
  have hkind := (hrun.stands h (Nat.zero_le m)).bit_eq
  have hbit := hrun.kind 0 hrun.length_pos
  rw [Nat.add_zero] at hkind hbit
  rw [hbit] at hkind
  cases bit with
  | true => exact Nat.zero_le _
  | false => exact isDataAt_eq_false_iff.1 hkind.symm

theorem runStart_add_runSize (g : Geometry) (bit : Bool) : g.runStart bit + g.runSize bit = runEnd g bit := by
  cases bit <;> simp [runStart, runSize, runEnd, total]

/-! ### What stands in front -/

/-- In front of a pulse of the stream stands another one, unless it begins a group. -/
def Backed (log : PulseLog) (g : Geometry) : Prop :=
  ∀ i, 0 < i → i < pulseWindow → log.Stands g i → log.Stands g (i - 1) ∨ (log.slot i).seq.toNat % g.total = 0

theorem backed_reanchor (g : Geometry) (seq : UInt32) : (reanchor seq).Backed g := by
  intro i hpos hi hstands
  have hplace := hstands.2
  rw [slot_reanchor seq hi, toNat_windowBase] at hplace
  omega

theorem stands_write (hp : p.Of g) : (log.write p).Stands g (p.seq.toNat % pulseWindow) := by
  rw [Stands, slot_write log p (Nat.mod_lt _ (by decide)), if_pos rfl]
  exact ⟨hp, rfl⟩

theorem stands_write_of_ne (hi : i < pulseWindow) (hne : i ≠ p.seq.toNat % pulseWindow) :
    (log.write p).Stands g i ↔ log.Stands g i := by
  rw [Stands, Stands, slot_write log p hi, if_neg hne]

/-- A pulse of the stream is written behind another one, or begins a window or a group. -/
theorem Backed.write (h : log.Backed g) (hp : p.Of g)
    (hfront : 0 < p.seq.toNat % pulseWindow → log.Stands g (p.seq.toNat % pulseWindow - 1) ∨
      p.seq.toNat % g.total = 0) : (log.write p).Backed g := by
  intro i hpos hi hstands
  by_cases heq : i = p.seq.toNat % pulseWindow
  · rw [slot_write log p hi, if_pos heq]
    refine (hfront (heq ▸ hpos)).imp_left fun hfront => ?_
    rw [heq]
    exact (stands_write_of_ne (by omega) (by omega)).2 hfront
  · rw [slot_write log p hi, if_neg heq]
    refine (h i hpos hi ((stands_write_of_ne hi heq).1 hstands)).imp_left fun hbehind => ?_
    by_cases heq' : i - 1 = p.seq.toNat % pulseWindow
    · rw [heq']
      exact stands_write hp
    · exact (stands_write_of_ne (by omega) heq').2 hbehind

/-- **Where the first run of a kind follows the pulse in front of it in the stream, it is a whole run.** -/
theorem FirstRun.length_eq (hg : g.Valid) (h : log.Logs g) (hbacked : log.Backed g) (hrun : log.FirstRun bit i m)
    (hnext : log.Stands g (i - 1) → (log.slot (i - 1)).seq.toNat + 1 ≡ (log.slot i).seq.toNat [MOD g.total]) :
    m = g.runSize bit := by
  have hfits := hrun.fits
  have hstands : log.Stands g i := hrun.stands h (Nat.zero_le m)
  have hkind : g.isDataAt (log.slot i).seq.toNat = bit := by
    rw [← hstands.bit_eq]
    exact hrun.kind 0 hrun.length_pos
  have hstart : (log.slot i).seq.toNat % g.total = g.runStart bit := by
    rcases hbacked i hrun.pos (by omega) hstands with hfront | hzero
    · have hopens := hrun.opens
      have hplace : _ = _ := hnext hfront
      rw [hfront.bit_eq] at hopens
      rw [← isDataAt_congr hplace] at hkind
      rw [← hplace]
      exact (edge_iff hg _ bit).1 ⟨hopens, hkind⟩
    · -- a group begins with data
      have hdata : g.isDataAt (log.slot i).seq.toNat = true := by
        rw [isDataAt_eq_true_iff, hzero]
        exact hg.data_pos
      obtain rfl : bit = true := hkind.symm.trans hdata
      exact hzero
  have hadd := hrun.place_add hg h
  rw [hstart, ← runStart_add_runSize] at hadd
  exact Nat.add_left_cancel hadd

/-! ### The log, pulse by pulse -/

/-- The log of a stream when the pulse with the sequence id `s` has come, behind `m` others. Up to its slot stands
what has come of its window, and each slot behind it holds what an earlier window left there. -/
structure Rolls (log : PulseLog) (g : Geometry) (s m : ℕ) : Prop where
  logs : log.Logs g
  anchored : log.anchored = true
  anchor : log.anchor.toNat = s - s % pulseWindow
  recent : ∀ i ≤ s % pulseWindow, s % pulseWindow ≤ i + m → log.Shows g (s - s % pulseWindow) i
  backed : log.Backed g

/-- A sequence id as a pulse of the stream. -/
theorem pulse_of (hs : s < g.ceiling) : (⟨g.isDataAt s, UInt32.ofNat s⟩ : Pulse).Of g ∧
    (UInt32.ofNat s).toNat = s := by
  have hseq : (UInt32.ofNat s).toNat = s := UInt32.toNat_ofNat_of_lt' (hs.trans (ceiling_lt g))
  refine ⟨⟨?_, ?_⟩, hseq⟩
  · rw [hseq]
    exact hs
  · rw [hseq]
    rfl

theorem Shows.stands (h : log.Shows g base i) (hbase : base % pulseWindow = 0) (hi : i < pulseWindow)
    (hlt : base + i < g.ceiling) : log.Stands g i := by
  obtain ⟨hof, hseq⟩ := pulse_of hlt
  rw [Stands, h]
  refine ⟨hof, ?_⟩
  rw [hseq, slot_of_base hbase hi]

/-- Writing the pulse of a sequence id, into a log that is backed. -/
theorem rolls_write (hs : s < g.ceiling) (hlogs : log.Logs g) (hanchored : log.anchored = true)
    (hbacked : log.Backed g) (hanchor : 0 < s % pulseWindow → log.anchor.toNat = s - s % pulseWindow)
    (hrecent : ∀ i < s % pulseWindow, s % pulseWindow ≤ i + m → log.Shows g (s - s % pulseWindow) i)
    (hfront : 0 < s % pulseWindow → 0 < m ∨ s % g.total = 0) :
    (log.write ⟨g.isDataAt s, UInt32.ofNat s⟩).Rolls g s m := by
  obtain ⟨hof, hseq⟩ := pulse_of hs
  have hlt : s % pulseWindow < pulseWindow := Nat.mod_lt _ (by decide)
  have hle := Nat.mod_le s pulseWindow
  have hbase : (s - s % pulseWindow) % pulseWindow = 0 := Nat.mod_eq_zero_of_dvd (Nat.dvd_sub_mod s)
  refine ⟨logs_write hlogs hof, hanchored, ?_, ?_, hbacked.write hof ?_⟩
  · rw [anchor_write, hseq]
    split
    · rw [hseq]
      omega
    · exact hanchor (by omega)
  · intro i hi hheard
    rw [Shows, slot_write log _ (by omega), hseq]
    split
    · rename_i heq
      rw [heq, Nat.sub_add_cancel hle]
    · exact hrecent i (by omega) hheard
  · rw [hseq]
    intro hpos
    refine (hfront hpos).imp_left fun hm => ?_
    exact (hrecent _ (by omega) (by omega)).stands hbase (by omega) (by omega)

/-- The first pulse begins a group. -/
theorem rolls_first (hs : s < g.ceiling) (hdvd : g.total ∣ s) :
    (empty.sample (g.isDataAt s) (UInt32.ofNat s)).Rolls g s 0 := by
  obtain ⟨-, hseq⟩ := pulse_of hs
  have heq : empty.sample (g.isDataAt s) (UInt32.ofNat s) =
      (reanchor (UInt32.ofNat s)).write ⟨g.isDataAt s, UInt32.ofNat s⟩ := rfl
  rw [heq]
  refine rolls_write hs (logs_replicate (toNat_windowBase _) true g) rfl (backed_reanchor g _) ?_ ?_ ?_
  · intro _
    rw [anchor_reanchor, windowBase, hseq]
    exact UInt32.toNat_ofNat_of_lt' (lt_of_le_of_lt (Nat.sub_le _ _) (hs.trans (ceiling_lt g)))
  · intro i hi hheard
    omega
  · intro _
    exact .inr (Nat.mod_eq_zero_of_dvd hdvd)

/-- **One pulse.** The next sequence id is the next word, or zero at the ceiling. In front of zero the log may be
cleared, as the rest of the words is skipped there. -/
theorem Rolls.next (hg : g.Valid) (h : log.Rolls g s m) (hs' : s' < g.ceiling)
    (hnext : s' = s + 1 ∨ s' = 0 ∧ s + 1 = g.ceiling) :
    (log.sample (g.isDataAt s') (UInt32.ofNat s')).Rolls g s' (m + 1) := by
  obtain ⟨-, hseq⟩ := pulse_of hs'
  have hanchor := h.anchor
  have hfar := lt_ceiling_add_total hg
  have hsize := total_le_256 hg
  have hlimit := ceiling_lt g
  have hlogs : (reanchor (UInt32.ofNat s')).Logs g := logs_replicate (toNat_windowBase _) true g
  have hahead : (UInt32.ofNat s' - log.anchor).toNat = (4294967296 - (s - s % pulseWindow) + s') % 4294967296 := by
    rw [UInt32.toNat_sub, hseq, hanchor]
  rw [seqidLimit] at hfar hlimit
  rw [pulseWindow] at hahead hanchor
  rcases hnext with rfl | ⟨rfl, hceil⟩
  · -- a word further, the pulse is at most a window ahead of the anchor
    have heq : log.sample (g.isDataAt (s + 1)) (UInt32.ofNat (s + 1)) =
        log.write ⟨g.isDataAt (s + 1), UInt32.ofNat (s + 1)⟩ := by
      rcases sample_cases log (g.isDataAt (s + 1)) (UInt32.ofNat (s + 1)) with
        ⟨-, hnew | hclear⟩ | ⟨heq, -⟩ | ⟨-, -, hbehind⟩
      · rw [h.anchored] at hnew
        cases hnew
      · rw [pulseWindow] at hclear
        omega
      · exact heq
      · omega
    rw [heq]
    refine rolls_write hs' h.logs h.anchored h.backed ?_ ?_ fun _ => .inl m.succ_pos
    · rw [pulseWindow]
      omega
    · intro i hi hheard
      have hrecent := h.recent i
      rw [pulseWindow] at hi hheard hrecent ⊢
      have hwindow : s + 1 - (s + 1) % 256 = s - s % 256 := by omega
      rw [hwindow]
      exact hrecent (by omega) (by omega)
  · have hwrite : ∀ log : PulseLog, log.Logs g → log.anchored = true → log.Backed g →
        (log.write ⟨g.isDataAt 0, UInt32.ofNat 0⟩).Rolls g 0 (m + 1) := by
      intro log hlogs hanchored hbacked
      refine rolls_write hs' hlogs hanchored hbacked ?_ ?_ ?_ <;> simp
    rcases sample_cases log (g.isDataAt 0) (UInt32.ofNat 0) with ⟨heq, -⟩ | ⟨heq, -⟩ | ⟨-, -, hbehind⟩
    · rw [heq]
      exact hwrite _ hlogs rfl (backed_reanchor g _)
    · rw [heq]
      exact hwrite log h.logs h.anchored h.backed
    · omega

/-- **What the slots hold at every moment.** -/
theorem rolls_hearing (hg : g.Valid) (hdvd : g.total ∣ base) (hbase : base < g.ceiling) (n : ℕ) :
    (hearing g base (n + 1)).Rolls g (g.seqidAt base n).toNat n := by
  have hlt : ∀ x, (g.seqidAt base x).toNat < g.ceiling := by
    intro x
    rw [toNat_seqidAt hg]
    exact Nat.mod_lt _ (ceiling_pos hg)
  have hsample : ∀ x, hearing g base (x + 1) = (hearing g base x).sample (g.isDataAt (g.seqidAt base x).toNat)
      (UInt32.ofNat (g.seqidAt base x).toNat) := by
    intro x
    rw [hearing_succ, isDataAt_seqidAt hg hdvd, UInt32.ofNat_toNat]
  rw [hsample]
  induction n with
  | zero =>
    refine rolls_first (hlt 0) ?_
    rw [toNat_seqidAt hg, Nat.add_zero, Nat.mod_eq_of_lt hbase]
    exact hdvd
  | succ n ih =>
    rw [hsample n]
    exact ih.next hg (hlt (n + 1)) (seqidAt_succ hg base n)

/-- In its first window, the log has nothing else in it. -/
theorem clean_hearing (hg : g.Valid) (hdvd : g.total ∣ base) (hbase : base < g.ceiling)
    (hfit : base % pulseWindow + (n + 1) ≤ pulseWindow) (hroom : base + n < g.ceiling) :
    (hearing g base (n + 1)).Clean g (base - base % pulseWindow) (base % pulseWindow) (n + 1) := by
  have hsample : ∀ x ≤ n, hearing g base (x + 1) =
      (hearing g base x).sample (g.isDataAt (base + x)) (UInt32.ofNat (base + x)) := by
    intro x hx
    have hmod : (base + x) % g.ceiling = base + x := Nat.mod_eq_of_lt (by omega)
    rw [hearing_succ, seqidAt, hmod, ← isDataAt_seqidAt hg hdvd, toNat_seqidAt hg, hmod]
  rw [hsample n le_rfl]
  induction n with
  | zero => exact clean_sample_first rfl hdvd (hbase.trans (ceiling_lt g))
  | succ n ih =>
    have hle := Nat.mod_le base pulseWindow
    have hprev := ih (by omega) (by omega) fun x hx => hsample x (by omega)
    have hsum : base - base % pulseWindow + (base % pulseWindow + (n + 1)) = base + (n + 1) := by omega
    have hstart : (base - base % pulseWindow) % pulseWindow = 0 := Nat.mod_eq_zero_of_dvd (Nat.dvd_sub_mod base)
    rw [hsample n (by omega), ← hsum]
    exact hprev.sample n.succ_pos (anchored_sample _ _ _) hstart (by omega)

/-! ### What is reported -/

/-- A period of `m` pulses from slot `i` on, and what it says about the stream: it is the rest of a run, and a whole
run where the pulse in front of it is the one that came before in the stream. -/
structure Measures (log : PulseLog) (g : Geometry) (bit : Bool) (i m : ℕ) : Prop extends log.FirstRun bit i m where
  inside : g.runStart bit ≤ (log.slot i).seq.toNat % g.total
  rest : (log.slot i).seq.toNat % g.total + m = runEnd g bit
  whole : (log.slot (i - 1)).seq + 1 = (log.slot i).seq → m = g.runSize bit

/-- The rest of a run is not longer than the run. -/
theorem Measures.le (h : log.Measures g bit i m) : m ≤ g.runSize bit := by
  have hinside := h.inside
  have hrest := h.rest
  rw [← runStart_add_runSize] at hrest
  omega

/-- Moments when no seam can be taken for an edge. Either windows consist of whole groups, or the stream is in its first
window, or there are two groups in the window by now. -/
def Unseamed (g : Geometry) (base n : ℕ) : Prop :=
  g.total ∣ pulseWindow ∨ (base % pulseWindow + n ≤ pulseWindow ∧ base + n ≤ g.ceiling) ∨
    2 * g.total ≤ (g.seqidAt base (n - 1)).toNat % pulseWindow

/-- Sequence ids in neighbouring slots are at neighbouring places where windows consist of whole groups. -/
theorem modEq_of_stands (hwindow : g.total ∣ pulseWindow) (hpos : 0 < i) (hprev : log.Stands g (i - 1))
    (hi : log.Stands g i) : (log.slot (i - 1)).seq.toNat + 1 ≡ (log.slot i).seq.toNat [MOD g.total] := by
  refine Nat.ModEq.of_dvd hwindow ?_
  have h := hprev.2
  have h' := hi.2
  rw [pulseWindow] at h h'
  rw [Nat.ModEq, pulseWindow]
  omega

/-- A pulse behind the first slot does not have the sequence id zero. -/
theorem toNat_eq_of_follows (hpos : 0 < i) (hi : log.Stands g i)
    (hseq : (log.slot (i - 1)).seq + 1 = (log.slot i).seq) :
    (log.slot (i - 1)).seq.toNat + 1 = (log.slot i).seq.toNat := by
  have hone : (1 : UInt32).toNat = 1 := rfl
  have hplace := hi.2
  have hlt := (log.slot (i - 1)).seq.toNat_lt
  rw [← hseq, UInt32.toNat_add, hone, pulseWindow] at hplace
  rw [← hseq, UInt32.toNat_add, hone]
  omega

/-- A log that has heard nothing reports nothing. -/
theorem findPeriod_empty : ∀ bit, empty.findPeriod bit = none := by decide +kernel

/-- A window that has come further than the stream is the first one. -/
theorem first_window (hg : g.Valid) (hbase : base < g.ceiling) (h : n < (g.seqidAt base n).toNat % pulseWindow) :
    base % pulseWindow + (n + 1) ≤ pulseWindow ∧ base + (n + 1) ≤ g.ceiling := by
  have hle := Nat.mod_le (g.seqidAt base n).toNat pulseWindow
  have hmod := Nat.mod_le (base + n - g.ceiling) g.ceiling
  rw [toNat_seqidAt hg] at h hle
  rcases Nat.lt_or_ge (base + n) g.ceiling with hlt | hge
  · rw [Nat.mod_eq_of_lt hlt, pulseWindow] at h
    rw [pulseWindow]
    omega
  · -- since the ceiling, no more than that many have come
    rw [← Nat.mod_eq_sub_mod hge] at hmod
    omega

/-- What the log reports of one kind. -/
theorem measures_of_findPeriod (hg : g.Valid) (hdvd : g.total ∣ base) (hbase : base < g.ceiling)
    (hf : (hearing g base n).findPeriod bit = some m) :
    (∃ i, (hearing g base n).Measures g bit i m) ∧ (Unseamed g base n → m = g.runSize bit) := by
  obtain ⟨i, hrun⟩ := findPeriod_eq_some_iff.1 hf
  have hpos := hrun.pos
  obtain ⟨n, rfl⟩ : ∃ k, n = k + 1 := by
    refine Nat.exists_eq_succ_of_ne_zero ?_
    rintro rfl
    rw [hearing_zero, findPeriod_empty] at hf
    cases hf
  have hrolls := rolls_hearing hg hdvd hbase n
  have hstands := hrun.stands hrolls.logs (Nat.zero_le m)
  refine ⟨⟨i, hrun, hrun.runStart_le hrolls.logs, hrun.place_add hg hrolls.logs, ?_⟩, ?_⟩
  · intro hseq
    refine hrun.length_eq hg hrolls.logs hrolls.backed fun _ => ?_
    rw [toNat_eq_of_follows hpos hstands hseq]
  · have hclean := fun h : base % pulseWindow + (n + 1) ≤ pulseWindow ∧ base + (n + 1) ≤ g.ceiling =>
      findPeriod_clean hg (clean_hearing hg hdvd hbase h.1 h.2) hf
    rintro (hwindow | hfirst | hlong)
    · exact hrun.length_eq hg hrolls.logs hrolls.backed fun hprev => modEq_of_stands hwindow hpos hprev hstands
    · exact hclean hfirst
    · rw [Nat.add_sub_cancel] at hlong
      by_cases hheard : (g.seqidAt base n).toNat % pulseWindow ≤ n
      · -- two groups stand in front of every seam
        have hlt : (g.seqidAt base n).toNat % pulseWindow < pulseWindow := Nat.mod_lt _ (by decide)
        have hshows := fun i hi => hrolls.recent i (Nat.le_of_lt_succ hi) (by omega)
        have hreport := findPeriod_of_shows hg hlt (Nat.lt_succ_of_le hlong) hshows bit
        exact Option.some.inj (hf.symm.trans hreport)
      · exact hclean (first_window hg hbase (by omega))

/-- **What is reported at every moment of a stream that is heard without loss.** Both periods are the rest of a run of
their kind, so none is too long. They are the geometry of the sender where the pulse in front of each of them is the
one that came before in the stream, and whenever no seam can be taken for an edge. -/
theorem lossless_reports (hg : g.Valid) (hdvd : g.total ∣ base) (hbase : base < g.ceiling) {d p : ℕ}
    (hdata : (hearing g base n).findPeriod true = some d)
    (hparity : (hearing g base n).findPeriod false = some p) :
    (∃ i j, (hearing g base n).Measures g true i d ∧ (hearing g base n).Measures g false j p) ∧
      (d ≤ g.data ∧ p ≤ g.parity) ∧ (Unseamed g base n → Geometry.mk d p = g) := by
  obtain ⟨⟨i, hrun⟩, hexact⟩ := measures_of_findPeriod hg hdvd hbase hdata
  obtain ⟨⟨j, hrun'⟩, hexact'⟩ := measures_of_findPeriod hg hdvd hbase hparity
  refine ⟨⟨i, j, hrun, hrun'⟩, ⟨?_, ?_⟩, ?_⟩
  · exact hrun.le
  · exact hrun'.le
  · intro h
    exact congrArg₂ Geometry.mk (hexact h) (hexact' h)

/-- A stream of groups of six that begins in front of the ceiling: its first packets behind it show the geometry. -/
theorem lossless_reports_behind_ceiling : ∃ i j,
    (hearing ⟨4, 2⟩ 4294967286 20).Measures ⟨4, 2⟩ true i 4 ∧
      (hearing ⟨4, 2⟩ 4294967286 20).Measures ⟨4, 2⟩ false j 2 :=
  (lossless_reports (by decide) (by decide) (by decide +kernel) (by decide +kernel) (by decide +kernel)).1

/-- **The rest of a run is reported.** Groups of six do not fill windows of 256 slots evenly. When the first pulse of
the second window, a parity shard, stands in slot 0, the three data shards behind it are left of a run of four. -/
theorem lossless_misread : (⟨4, 2⟩ : Geometry).Valid ∧ (⟨4, 2⟩ : Geometry).total ∣ 0 ∧ 0 < (⟨4, 2⟩ : Geometry).ceiling ∧
    (hearing ⟨4, 2⟩ 0 257).findPeriod true = some 3 ∧ (hearing ⟨4, 2⟩ 0 257).findPeriod false = some 2 ∧
    Geometry.mk 3 2 ≠ ⟨4, 2⟩ :=
  ⟨by decide, by decide, by decide, by decide +kernel, by decide +kernel, by decide⟩

end PulseLog

end PacketFec
