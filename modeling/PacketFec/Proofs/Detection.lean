import Mathlib
import PacketFec.Proofs.Provenance
import PacketFec.Proofs.Windows

/-!
# What the pulse log of one stream shows

The pulses of a stream have the kinds of their places, and the log keeps each in the slot of its sequence id.
Its other slots have been cleared to the start of a window. So pulses that follow one another, in neighbouring
slots behind the first, are pulses of the stream at neighbouring places, and a reported period reaches from
wherever its left edge stands to the end of the run at that place.

* `Pulse.Of`, `PulseLog.Logs`: the pulses of a stream, and a log of them.
* `PulseLog.logs_sample`: taking note of a pulse of the stream keeps such a log.
* `PulseLog.Stands`, `PulseLog.FirstRun.stands`: the slots of a reported run hold pulses of the stream.
* `PulseLog.FirstRun.place_add`: **the run ends where the run at its place does.**
* `PulseLog.place_of_findPeriod`: **a reported period is the rest of a run, from its left edge on.**
-/

namespace PacketFec

/-- A pulse of a stream: its sequence id is in use, and its kind is that of its place. -/
structure Pulse.Of (p : Pulse) (g : Geometry) : Prop where
  seq_lt : p.seq.toNat < g.ceiling
  bit_eq : p.bit = decide (p.seq.toNat % g.total < g.data)

namespace PulseLog

/-- Where the run of a kind ends in a group. -/
def runEnd (g : Geometry) (bit : Bool) : ℕ := if bit then g.data else g.total

end PulseLog

namespace Geometry

variable {g : Geometry} {x m : ℕ} {bit : Bool}

/-- A run that starts anywhere ends where the run at its place does. -/
theorem place_add_of_run (hg : g.Valid) (hpos : 0 < m) (hrun : ∀ k < m, g.isDataAt (x + k) = bit)
    (hend : g.isDataAt (x + m) ≠ bit) : x % g.total + m = PulseLog.runEnd g bit := by
  obtain ⟨hd, hp, htotal⟩ := counts hg
  have hlt := Nat.mod_lt x (total_pos hg)
  have hmod : ∀ k, x % g.total + k < g.total → (x + k) % g.total = x % g.total + k := by
    intro k hk
    rw [Nat.add_mod, Nat.mod_eq_of_lt (show k < g.total by omega), Nat.mod_eq_of_lt hk]
  have hfirst := hrun 0 hpos
  rw [Nat.add_zero] at hfirst
  cases bit with
  | true =>
    rw [isDataAt_eq_true_iff] at hfirst
    rw [ne_eq, Bool.not_eq_true, isDataAt_eq_false_iff] at hend
    show x % g.total + m = g.data
    -- a shorter run would go on, and a longer one would have a parity shard in it
    rcases lt_trichotomy (x % g.total + m) g.data with hshort | heq | hlong
    · rw [hmod m (by omega)] at hend
      omega
    · exact heq
    · have hdata := hrun (g.data - x % g.total) (by omega)
      rw [isDataAt_eq_true_iff, hmod _ (by omega)] at hdata
      omega
  | false =>
    rw [isDataAt_eq_false_iff] at hfirst
    rw [Bool.ne_false_iff, isDataAt_eq_true_iff] at hend
    show x % g.total + m = g.total
    rcases lt_trichotomy (x % g.total + m) g.total with hshort | heq | hlong
    · rw [hmod m hshort] at hend
      omega
    · exact heq
    · have hparity := hrun (g.total - x % g.total) (by omega)
      have hzero : (x + (g.total - x % g.total)) % g.total = 0 := by
        rw [Nat.add_mod, Nat.mod_eq_of_lt (show g.total - x % g.total < g.total by omega),
          Nat.add_sub_cancel' hlt.le, Nat.mod_self]
      rw [isDataAt_eq_false_iff, hzero] at hparity
      omega

end Geometry

namespace PulseLog

open PacketFec.Geometry

variable {log : PulseLog} {g : Geometry} {p q : Pulse} {i n : ℕ} {bit : Bool}

/-- A log of one stream. Each slot has the latest pulse of the stream that belongs there, or it has been
cleared. -/
def Logs (log : PulseLog) (g : Geometry) : Prop :=
  ∀ i p, log.pulses.toList[i]? = some p →
    p.Of g ∧ p.seq.toNat % pulseWindow = i ∨ p.bit = false ∧ p.seq.toNat % pulseWindow = 0

/-- A log of one stream is one whose pulses come from the stream. -/
theorem logs_iff_sourced : log.Logs g ↔ log.Sourced (Pulse.Of · g) := by
  constructor
  · intro h i hi
    exact h i _ (log.getElem?_slot hi)
  · intro h i p hp
    have hi : i < pulseWindow := by
      have hlen : log.pulses.toList.length = pulseWindow := Vector.length_toList
      rw [← hlen]
      exact (List.getElem?_eq_some_iff.1 hp).1
    obtain rfl := Option.some.inj ((log.getElem?_slot hi).symm.trans hp)
    exact h i hi

theorem logs_replicate {seq : UInt32} (hseq : seq.toNat % pulseWindow = 0) (anchored : Bool) (g : Geometry) :
    Logs ⟨.replicate pulseWindow ⟨false, seq⟩, anchored⟩ g :=
  logs_iff_sourced.2 (sourced_replicate hseq anchored _)

theorem logs_write (h : log.Logs g) (hp : p.Of g) : (log.write p).Logs g :=
  logs_iff_sourced.2 ((logs_iff_sourced.1 h).write hp)

/-- Taking note of a pulse of the stream. -/
theorem logs_sample (h : log.Logs g) {bit : Bool} {seq : UInt32} (hp : Pulse.Of ⟨bit, seq⟩ g) :
    (log.sample bit seq).Logs g :=
  logs_iff_sourced.2 ((logs_iff_sourced.1 h).sample hp)

/-! ### Slots that hold a pulse of the stream -/

/-- A slot that holds a pulse of the stream, which belongs there. -/
def Stands (log : PulseLog) (g : Geometry) (i : ℕ) : Prop :=
  (log.slot i).Of g ∧ (log.slot i).seq.toNat % pulseWindow = i

/-- A word behind an id that is in use is the next number. -/
theorem toNat_add_one_of_of (hp : p.Of g) (hseq : p.seq + 1 = q.seq) : q.seq.toNat = p.seq.toNat + 1 := by
  have hceil := hp.seq_lt
  have hbound := Geometry.ceiling_lt g
  rw [seqidLimit] at hbound
  have hone : (1 : UInt32).toNat = 1 := rfl
  rw [← hseq, UInt32.toNat_add, hone, Nat.mod_eq_of_lt (by omega)]

theorem Stands.bit_eq (h : log.Stands g i) : (log.slot i).bit = g.isDataAt (log.slot i).seq.toNat := h.1.bit_eq

/-- The first run of a kind in the log of a stream, with the pulse behind it, stands in the stream. -/
theorem FirstRun.stands (h : log.Logs g) (hrun : log.FirstRun bit i n) {k : ℕ} (hk : k ≤ n) : log.Stands g (i + k) :=
  hrun.sourced (logs_iff_sourced.1 h) hk

theorem FirstRun.toNat_seq_eq (h : log.Logs g) (hrun : log.FirstRun bit i n) {k : ℕ} (hk : k ≤ n) :
    (log.slot (i + k)).seq.toNat = (log.slot i).seq.toNat + k := by
  induction k with
  | zero => rfl
  | succ k ih =>
    have hle := Nat.le_of_succ_le hk
    have hsucc := toNat_add_one_of_of (hrun.stands h hle).1 (hrun.follows k hk)
    rw [← Nat.add_assoc, hsucc, ih hle, Nat.add_assoc]

/-! ### Runs -/

/-- **The first run of a kind ends where the run of the stream at its place does.** -/
theorem FirstRun.place_add (hg : g.Valid) (h : log.Logs g) (hrun : log.FirstRun bit i n) :
    (log.slot i).seq.toNat % g.total + n = runEnd g bit := by
  have hkind : ∀ k ≤ n, g.isDataAt ((log.slot i).seq.toNat + k) = (log.slot (i + k)).bit := by
    intro k hk
    rw [(hrun.stands h hk).bit_eq, hrun.toNat_seq_eq h hk]
  refine place_add_of_run hg hrun.length_pos ?_ ?_
  · intro k hk
    rw [hkind k hk.le]
    exact hrun.kind k hk
  · rw [hkind n le_rfl]
    exact hrun.closes

/-- **A reported period is the rest of a run**, from its left edge on. -/
theorem place_of_findPeriod (hg : g.Valid) (h : log.Logs g) (hf : log.findPeriod bit = some n) :
    ∃ left, log.leftEdge? bit = some left ∧ left.bit = bit ∧ left.Of g ∧
      left.seq.toNat % g.total + n = runEnd g bit := by
  obtain ⟨i, hrun⟩ := findPeriod_eq_some_iff.1 hf
  have hleft : log.Stands g i := hrun.stands h (Nat.zero_le n)
  exact ⟨log.slot i, hrun.leftEdge?_eq, hrun.kind 0 hrun.length_pos, hleft.1, hrun.place_add hg h⟩

end PulseLog

end PacketFec
