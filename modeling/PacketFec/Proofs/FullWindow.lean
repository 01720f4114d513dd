import Mathlib
import PacketFec.Proofs.Windows

/-!
# A window that has been heard in full

A log that hears every pulse of one window shows the kinds of all 256 positions, in whatever order the pulses come and
however often. The first pulse clears the log to the start of the window, and every other one is written into its slot:
none of them is ahead of the window or behind it. So the first edge of a kind stands where the sender's next run of the
kind starts, except that slot 0 never counts as an edge. The log reports the run if the pulse behind it is still in the
window, and nothing at all otherwise, because later edges are not looked at.

* `PulseLog.hear`: the log behind the pulses at some places of a window.
* `PulseLog.Heard`, `PulseLog.Heard.sample`: a cleared window in which some slots have been heard, and one pulse more.
* `PulseLog.findPeriod_of_all_heard`: what a full window reports, for each kind.
* `PulseLog.exact_detection`: **the reports and the anchor of a full window.**
-/

namespace PacketFec.PulseLog

open PacketFec.Geometry

variable {log : PulseLog} {g : Geometry} {bits : ℕ → Bool} {base f i i₀ k : ℕ} {bit : Bool} {done order : List ℕ}

/-! ### Filling a window -/

/-- The log behind some pulses of the window from `b` on, in the order of their places in it. -/
def hear (log : PulseLog) (bits : ℕ → Bool) (b : UInt32) (order : List ℕ) : PulseLog :=
  order.foldl (fun log i => log.sample (bits i) (b + UInt32.ofNat i)) log

/-- A log that has been cleared to the window from `base` on and has heard some of its pulses. -/
structure Heard (log : PulseLog) (bits : ℕ → Bool) (base : ℕ) (done : List ℕ) : Prop where
  anchored : log.anchored = true
  slot_eq : ∀ i < pulseWindow, log.slot i =
    if i ∈ done then ⟨bits i, UInt32.ofNat (base + i)⟩ else ⟨false, UInt32.ofNat base⟩

/-- The anchor is the start of the window, whether its first slot has been heard or not. -/
theorem Heard.anchor_eq (h : log.Heard bits base done) : log.anchor = UInt32.ofNat base := by
  rw [PulseLog.anchor_eq, h.slot_eq 0 (by decide)]
  split
  · rw [Nat.add_zero]
  · rfl

/-- **The first pulse** clears the log to its window. -/
theorem heard_first (bits : ℕ → Bool) (hanchored : log.anchored = false) (hbase : base % pulseWindow = 0)
    (hroom : base + pulseWindow ≤ seqidLimit) (hk : k < pulseWindow) :
    (log.sample (bits k) (UInt32.ofNat (base + k))).Heard bits base [k] := by
  have h256 : pulseWindow = 256 := rfl
  have hlimit : seqidLimit = 4294967296 := rfl
  have hseq : (UInt32.ofNat (base + k)).toNat = base + k := UInt32.toNat_ofNat_of_lt' (by rw [UInt32.size]; omega)
  have hplace := slot_of_base hbase hk
  have hwindow : windowBase (UInt32.ofNat (base + k)) = UInt32.ofNat base := by
    rw [windowBase, hseq, hplace, Nat.add_sub_cancel]
  have heq : log.sample (bits k) (UInt32.ofNat (base + k)) =
      (reanchor (UInt32.ofNat (base + k))).write ⟨bits k, UInt32.ofNat (base + k)⟩ := by
    simp [sample, hanchored]
  refine ⟨anchored_sample _ _ _, ?_⟩
  intro i hi
  rw [heq, slot_write _ _ hi, slot_reanchor _ hi, hseq, hplace, hwindow]
  by_cases hik : i = k
  · subst hik
    simp
  · simp [hik]

/-- **Another pulse of the window** is written into its slot. -/
theorem Heard.sample (h : log.Heard bits base done) (hbase : base % pulseWindow = 0)
    (hroom : base + pulseWindow ≤ seqidLimit) (hk : k < pulseWindow) :
    (log.sample (bits k) (UInt32.ofNat (base + k))).Heard bits base (k :: done) := by
  refine ⟨anchored_sample _ _ _, ?_⟩
  intro i hi
  rw [slot_sample h.anchored h.anchor_eq hbase hroom hk (bits k) hi, h.slot_eq i hi]
  by_cases hik : i = k
  · subst hik
    simp
  · simp [hik]

/-- A run of pulses of the window. -/
theorem Heard.hear {b : UInt32} (h : log.Heard bits b.toNat done) (hbase : b.toNat % pulseWindow = 0)
    (hroom : b.toNat + pulseWindow ≤ seqidLimit) (horder : ∀ i ∈ order, i < pulseWindow) :
    (log.hear bits b order).Heard bits b.toNat (order.reverse ++ done) := by
  induction order generalizing log done with
  | nil => exact h
  | cons k rest ih =>
    have hnext := h.sample hbase hroom (horder k List.mem_cons_self)
    rw [UInt32.ofNat_add, UInt32.ofNat_toNat] at hnext
    have hrest := ih hnext fun i hi => horder i (List.mem_cons_of_mem k hi)
    rw [List.reverse_cons, List.append_assoc]
    exact hrest

/-- **A new log that hears all pulses of a window** shows each of them in its slot. -/
theorem slot_of_all_heard {b : UInt32} (hanchored : log.anchored = false) (hbase : b.toNat % pulseWindow = 0)
    (horder : ∀ i, i ∈ order ↔ i < pulseWindow) (hi : i < pulseWindow) :
    (log.hear bits b order).slot i = ⟨bits i, UInt32.ofNat (b.toNat + i)⟩ := by
  have hlt := b.toNat_lt
  have hroom : b.toNat + pulseWindow ≤ seqidLimit := by
    rw [pulseWindow] at hbase ⊢
    rw [seqidLimit]
    omega
  cases order with
  | nil => simpa using (horder i).2 hi
  | cons k rest =>
    have hfirst := heard_first bits hanchored hbase hroom ((horder k).1 List.mem_cons_self)
    rw [UInt32.ofNat_add, UInt32.ofNat_toNat] at hfirst
    have hall := hfirst.hear hbase hroom fun i hi => (horder i).1 (List.mem_cons_of_mem k hi)
    have hmem := (horder i).2 hi
    have hdone : i ∈ rest.reverse ++ [k] := by simpa [or_comm] using hmem
    show ((log.sample (bits k) (b + UInt32.ofNat k)).hear bits b rest).slot i = _
    rw [hall.slot_eq i hi, if_pos hdone]

/-! ### Reading a full window -/

/-- **What a full window reports.** The first run of the kind starts at the least place behind slot 0 where the sender
starts one. It is reported with its length if it ends in the window, and nothing is reported otherwise. -/
theorem findPeriod_of_all_heard (hg : g.Valid)
    (hslot : ∀ i < pulseWindow, log.slot i = ⟨g.isDataAt (f + i), UInt32.ofNat (base + i)⟩)
    (hleast : IsLeast {i | 1 ≤ i ∧ (i + f) % g.total = g.runStart bit} i₀) :
    log.findPeriod bit = if i₀ + g.runSize bit ≤ 255 then some (g.runSize bit) else none := by
  have h256 : pulseWindow = 256 := rfl
  obtain ⟨⟨hpos, hplace⟩, hbelow⟩ := hleast
  rw [Nat.add_comm] at hplace
  have hbits : ∀ i < pulseWindow, (log.slot i).bit = g.isDataAt (f + i) := by
    intro i hi
    rw [hslot i hi]
  have hedge : ∀ i, 0 < i → i < pulseWindow → ((log.slot (i - 1)).bit ≠ bit ∧ (log.slot i).bit = bit ↔
      (f + i) % g.total = g.runStart bit) := by
    intro i hpos hi
    exact edge_iff_place hg hbits hpos hi
  -- no edge stands in front of the least place
  have hleast : ∀ i, 0 < i → i < pulseWindow → (log.slot (i - 1)).bit ≠ bit → (log.slot i).bit = bit → i₀ ≤ i := by
    intro i hi hlt hopens hbit
    have hstart := (hedge i hi hlt).1 ⟨hopens, hbit⟩
    rw [Nat.add_comm] at hstart
    exact hbelow ⟨hi, hstart⟩
  have hkind : ∀ k, i₀ + k < pulseWindow → (log.slot (i₀ + k)).bit = g.isDataAt (f + i₀ + k) := by
    intro k hk
    rw [hslot _ hk, Nat.add_assoc]
  split
  · rename_i hfits
    refine findPeriod_eq_some_iff.2
      ⟨i₀, firstRun_of_run (x := f + i₀) (y := base + i₀) hg hpos (by omega) ?_ hplace ?_ ?_⟩
    · intro k hk
      rw [hslot _ (by omega), Nat.add_assoc, Nat.add_assoc]
    · exact ((hedge i₀ hpos (by omega)).2 hplace).1
    · -- an earlier edge would be an earlier start of a run
      intro j hj hji hbit
      by_contra hne
      have := hleast j hj (by omega) hne hbit
      omega
  · rename_i hcut
    rw [Option.eq_none_iff_forall_not_mem]
    intro m hm
    obtain ⟨i, hrun⟩ := findPeriod_eq_some_iff.1 hm
    have hfits := hrun.fits
    have hlong := hrun.length_pos
    have hle := hleast i hrun.pos (by omega) hrun.opens (hrun.kind 0 hlong)
    -- the run that is reported starts at the least place, so it ends with the sender's run
    have hi : i = i₀ := by
      by_contra hne
      obtain ⟨hopens, hbit⟩ := (hedge i₀ hpos (by omega)).2 hplace
      exact hopens (hrun.first i₀ hpos (by omega) hbit)
    subst hi
    have hshort : m < g.runSize bit := by omega
    exact hrun.closes ((hkind m (by omega)).trans (isDataAt_run hg hplace hshort))

/-- There is such a place in every group. -/
theorem exists_isLeast_place (hg : g.Valid) (f : ℕ) (bit : Bool) :
    ∃ i, IsLeast {i | 1 ≤ i ∧ (i + f) % g.total = g.runStart bit} i := by
  obtain ⟨j, hpos, -, hplace⟩ := exists_place (runStart_lt_total hg bit) f
  rw [Nat.add_comm] at hplace
  exact ⟨_, Nat.isLeast_find ⟨j, hpos, hplace⟩⟩

/-- **Exact detection on one full window.** A new log hears all pulses of the window from `b` on, of a sender that is at
the place `f` of a group when the window starts, in any order and as often as may be. The log reports the data of a
group exactly where the first run of data behind slot 0 ends in the window, and nothing otherwise. The same holds of the
parity. The anchor is the start of the window. -/
theorem exact_detection {b : UInt32} (hg : g.Valid) (hbase : b.toNat % 256 = 0) (f : ℕ)
    (horder : ∀ i, i ∈ order ↔ i < 256) :
    ∃ i₁ i₂, IsLeast {i | 1 ≤ i ∧ (i + f) % g.total = 0} i₁ ∧ IsLeast {i | 1 ≤ i ∧ (i + f) % g.total = g.data} i₂ ∧
      (empty.hear (fun i => decide ((i + f) % g.total < g.data)) b order).findPeriod true =
        (if i₁ + g.data ≤ 255 then some g.data else none) ∧
      (empty.hear (fun i => decide ((i + f) % g.total < g.data)) b order).findPeriod false =
        (if i₂ + g.parity ≤ 255 then some g.parity else none) ∧
      (empty.hear (fun i => decide ((i + f) % g.total < g.data)) b order).anchor = b := by
  set log := empty.hear (fun i => decide ((i + f) % g.total < g.data)) b order
  have hslot : ∀ i < pulseWindow, log.slot i = ⟨g.isDataAt (f + i), UInt32.ofNat (b.toNat + i)⟩ := by
    intro i hi
    rw [slot_of_all_heard rfl hbase horder hi, isDataAt, Nat.add_comm f i]
  obtain ⟨i₁, hdata⟩ := exists_isLeast_place hg f true
  obtain ⟨i₂, hparity⟩ := exists_isLeast_place hg f false
  refine ⟨i₁, i₂, hdata, hparity, findPeriod_of_all_heard hg hslot hdata, findPeriod_of_all_heard hg hslot hparity, ?_⟩
  rw [anchor_eq, hslot 0 (by decide)]
  exact UInt32.ofNat_toNat

/-- Groups of eight and four, heard from their sixth place on in the topmost window, the pulses of which come in order
and some of them again: both counts are reported. Of groups of 200 and 50, heard from the first place on, the second run
of data is cut off, and nothing is reported of it. -/
theorem exact_detection_of_two_senders :
    ((empty.hear (fun i => decide ((i + 5) % 12 < 8)) 4294967040 (List.range 256 ++ [7, 0])).findPeriod true = some 8 ∧
      (empty.hear (fun i => decide ((i + 5) % 12 < 8)) 4294967040 (List.range 256 ++ [7, 0])).findPeriod false =
        some 4) ∧
    (empty.hear (fun i => decide ((i + 0) % 250 < 200)) 512 (List.range 256).reverse).findPeriod true = none := by
  have hsome : ∀ i, i ∈ List.range 256 ++ [7, 0] ↔ i < 256 := by
    intro i
    simp
    omega
  have hreverse : ∀ i, i ∈ (List.range 256).reverse ↔ i < 256 := by
    intro i
    simp
  obtain ⟨i₁, i₂, hdata, hparity, h₁, h₂, -⟩ :=
    exact_detection (g := ⟨8, 4⟩) (b := 4294967040) (by decide) (by decide) 5 hsome
  obtain ⟨j₁, -, hfirst, -, h₃, -, -⟩ := exact_detection (g := ⟨200, 50⟩) (b := 512) (by decide) (by decide) 0 hreverse
  have hseven : i₁ ≤ 7 := hdata.2 (by decide)
  have hthree : i₂ ≤ 3 := hparity.2 (by decide)
  have hlate : 250 ≤ j₁ := by
    obtain ⟨hpos, hplace⟩ := hfirst.1
    change (j₁ + 0) % 250 = 0 at hplace
    omega
  rw [if_pos (by show i₁ + 8 ≤ 255; omega)] at h₁
  rw [if_pos (by show i₂ + 4 ≤ 255; omega)] at h₂
  rw [if_neg (by show ¬ j₁ + 200 ≤ 255; omega)] at h₃
  exact ⟨⟨h₁, h₂⟩, h₃⟩

end PacketFec.PulseLog
