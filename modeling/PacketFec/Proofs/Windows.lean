import Mathlib
import PacketFec.Proofs.Fitting
import PacketFec.Proofs.Periods

/-!
# Windows that show the geometry of a sender

The log of a receiver that hears a sender without loss fills up with the kinds of the sender's positions. As soon as
it shows one complete run of each kind, behind the first edge of the kind, the receiver can tell the geometry. What
the later slots still hold of earlier traffic does not matter then, because the scans do not get there.

* `Geometry.eq_of_agree`: **two geometries that agree on a group and the edge before it are the same.**
* `PulseLog.Shows`: a slot that shows a position of a sender.
* `PulseLog.findPeriod_of_shows`: **what is reported once the first two groups of a window are there.**
* `PulseLog.Clean`, `PulseLog.findPeriod_clean`, `PulseLog.findPeriod_of_clean`: what is reported by a log that has
  been cleared before the first group of the sender.
* `Decoder.inPlace_shardAt`, `Decoder.Takes.geometry_cases`: what a packet of the sender does to the geometry.
-/

namespace PacketFec

namespace Geometry

variable {g g' : Geometry} {x : ℕ} {bit : Bool}

/-- Whether data stands at a position. -/
def isDataAt (g : Geometry) (x : ℕ) : Bool := decide (x % g.total < g.data)

theorem isDataAt_eq_true_iff : g.isDataAt x = true ↔ x % g.total < g.data := decide_eq_true_iff

theorem isDataAt_eq_false_iff : g.isDataAt x = false ↔ g.data ≤ x % g.total := by
  rw [isDataAt, decide_eq_false_iff_not, not_lt]

/-- A group has shards of both kinds, and no others. -/
theorem counts (hg : g.Valid) : 0 < g.data ∧ 0 < g.parity ∧ g.total = g.data + g.parity :=
  ⟨hg.data_pos, hg.parity_pos, rfl⟩

/-- Where the run of a kind starts in a group. -/
def runStart (g : Geometry) (bit : Bool) : ℕ := if bit then 0 else g.data

/-- The length of the run of a kind. -/
def runSize (g : Geometry) (bit : Bool) : ℕ := if bit then g.data else g.parity

theorem runSize_pos (hg : g.Valid) (bit : Bool) : 0 < g.runSize bit := by
  have hd := hg.data_pos
  have hp := hg.parity_pos
  cases bit
  · exact hp
  · exact hd

theorem runSize_lt_total (hg : g.Valid) (bit : Bool) : g.runSize bit < g.total := by
  obtain ⟨hd, hp, htotal⟩ := counts hg
  cases bit
  · show g.parity < g.total
    omega
  · show g.data < g.total
    omega

theorem runStart_lt_total (hg : g.Valid) (bit : Bool) : g.runStart bit < g.total := by
  obtain ⟨-, hp, htotal⟩ := counts hg
  cases bit
  · show g.data < g.total
    omega
  · exact total_pos hg

theorem succ_mod_total (hg : g.Valid) (x : ℕ) :
    (x + 1) % g.total = if x % g.total + 1 = g.total then 0 else x % g.total + 1 := by
  obtain ⟨hd, hp, htotal⟩ := counts hg
  have hlt := Nat.mod_lt x (total_pos hg)
  rw [Nat.add_mod, Nat.mod_eq_of_lt (show 1 < g.total by omega)]
  split
  · rename_i hend
    rw [hend, Nat.mod_self]
  · exact Nat.mod_eq_of_lt (by omega)

/-- The kinds of neighbours differ exactly at the start of a run. -/
theorem edge_iff (hg : g.Valid) (x : ℕ) (bit : Bool) :
    g.isDataAt x ≠ bit ∧ g.isDataAt (x + 1) = bit ↔ (x + 1) % g.total = g.runStart bit := by
  obtain ⟨hd, hp, htotal⟩ := counts hg
  have hlt := Nat.mod_lt x (total_pos hg)
  have hsucc := succ_mod_total hg x
  cases bit with
  | true =>
    rw [ne_eq, Bool.not_eq_true, isDataAt_eq_false_iff, isDataAt_eq_true_iff]
    show _ ↔ (x + 1) % g.total = 0
    split at hsucc <;> omega
  | false =>
    rw [Bool.ne_false_iff, isDataAt_eq_false_iff, isDataAt_eq_true_iff]
    show _ ↔ (x + 1) % g.total = g.data
    split at hsucc <;> omega

theorem mod_add_of_start (hx : x % g.total = g.runStart bit) {k : ℕ} (hk : g.runStart bit + k < g.total) :
    (x + k) % g.total = g.runStart bit + k := by
  rw [Nat.add_mod, hx, Nat.add_mod_mod, Nat.mod_eq_of_lt hk]

/-- From the start of a run on, its kind stands there. -/
theorem isDataAt_run (hg : g.Valid) (hx : x % g.total = g.runStart bit) {k : ℕ} (hk : k < g.runSize bit) :
    g.isDataAt (x + k) = bit := by
  obtain ⟨hd, hp, htotal⟩ := counts hg
  cases bit with
  | true =>
    have hk' : k < g.data := hk
    have hmod := mod_add_of_start hx (k := k) (by show 0 + k < g.total; omega)
    rw [isDataAt_eq_true_iff, hmod]
    show 0 + k < g.data
    omega
  | false =>
    have hk' : k < g.parity := hk
    have hmod := mod_add_of_start hx (k := k) (by show g.data + k < g.total; omega)
    rw [isDataAt_eq_false_iff, hmod]
    exact Nat.le_add_right _ _

/-- Behind a run stands the other kind. -/
theorem isDataAt_behind_run (hg : g.Valid) (hx : x % g.total = g.runStart bit) :
    g.isDataAt (x + g.runSize bit) ≠ bit := by
  obtain ⟨hd, hp, htotal⟩ := counts hg
  cases bit with
  | true =>
    have hmod := mod_add_of_start hx (k := g.data) (by show 0 + g.data < g.total; omega)
    rw [ne_eq, Bool.not_eq_true, isDataAt_eq_false_iff]
    show g.data ≤ (x + g.data) % g.total
    rw [hmod]
    exact Nat.le_add_left _ _
  | false =>
    have hx' : x % g.total = g.data := hx
    have hmod : (x + g.parity) % g.total = 0 := by
      rw [Nat.add_mod, hx', Nat.add_mod_mod, ← htotal, Nat.mod_self]
    rw [Bool.ne_false_iff, isDataAt_eq_true_iff]
    show (x + g.parity) % g.total < g.data
    omega

/-- Every place comes up among the next positions of a group's length. -/
theorem exists_place {r : ℕ} (hr : r < g.total) (x : ℕ) : ∃ j, 0 < j ∧ j ≤ g.total ∧ (x + j) % g.total = r := by
  have hlt := Nat.mod_lt x (Nat.zero_lt_of_lt hr)
  by_cases h : x % g.total < r
  · refine ⟨r - x % g.total, by omega, by omega, ?_⟩
    rw [Nat.add_mod, Nat.add_mod_mod, Nat.add_sub_cancel' h.le, Nat.mod_eq_of_lt hr]
  · refine ⟨r + g.total - x % g.total, by omega, by omega, ?_⟩
    rw [Nat.add_mod, Nat.add_mod_mod, Nat.add_sub_cancel' (by omega), Nat.add_mod_right, Nat.mod_eq_of_lt hr]

/-- **Two geometries that agree on a group and the edge before it are the same.** -/
theorem eq_of_agree (hg : g.Valid) (hg' : g'.Valid) {a : ℕ} (ha : g.total ∣ a) (hpos : 0 < a)
    (hagree : ∀ z, a - 1 ≤ z → z ≤ a + g.total → g'.isDataAt z = g.isDataAt z) : g' = g := by
  obtain ⟨hd, hp, htotal⟩ := counts hg
  obtain ⟨hd', hp', htotal'⟩ := counts hg'
  -- the edge is one of the other geometry too
  have hstart : a % g.total = 0 := Nat.mod_eq_zero_of_dvd ha
  have hstart' : a % g'.total = 0 := by
    obtain ⟨b, rfl⟩ := Nat.exists_eq_succ_of_ne_zero hpos.ne'
    have hedge := (edge_iff hg b true).2 hstart
    rw [← hagree b (by omega) (by omega), ← hagree (b + 1) (by omega) (by omega)] at hedge
    exact (edge_iff hg' b true).1 hedge
  -- from there on, both place the kinds alike, and the shorter run or group would show
  have hplace : ∀ k, k ≤ g.total → (k % g'.total < g'.data ↔ k % g.total < g.data) := by
    intro k hk
    have h := hagree (a + k) (by omega) (by omega)
    rw [isDataAt, isDataAt, decide_eq_decide, Nat.add_mod, hstart', Nat.zero_add, Nat.mod_mod, Nat.add_mod a k,
      hstart, Nat.zero_add, Nat.mod_mod] at h
    exact h
  have hdata : g'.data = g.data := by
    rcases lt_trichotomy g'.data g.data with hlt | heq | hlt
    · have h := hplace g'.data (by omega)
      rw [Nat.mod_eq_of_lt (by omega), Nat.mod_eq_of_lt (by omega)] at h
      omega
    · exact heq
    · have h := hplace g.data (by omega)
      rw [Nat.mod_eq_of_lt (by omega), Nat.mod_eq_of_lt (by omega)] at h
      omega
  have hsize : g'.total = g.total := by
    rcases lt_trichotomy g'.total g.total with hlt | heq | hlt
    · have h := hplace g'.total (by omega)
      rw [Nat.mod_self, Nat.mod_eq_of_lt hlt] at h
      omega
    · exact heq
    · have h := hplace g.total le_rfl
      rw [Nat.mod_self, Nat.mod_eq_of_lt hlt] at h
      omega
  cases g
  cases g'
  simp only [Geometry.mk.injEq]
  simp only [total] at *
  omega

end Geometry

namespace PulseLog

open PacketFec.Geometry

variable {log : PulseLog} {g : Geometry} {base f i n m : ℕ} {bit : Bool}

/-- A slot that shows the position of a sender that belongs there, in the window from `base` on. -/
def Shows (log : PulseLog) (g : Geometry) (base i : ℕ) : Prop :=
  log.slot i = ⟨g.isDataAt (base + i), UInt32.ofNat (base + i)⟩

/-- A run of a sender, from the position `x` and the id `y` on, is the first one where no earlier slot opens one. -/
theorem firstRun_of_run {x y : ℕ} (hg : g.Valid) (hpos : 0 < i) (hfits : i + g.runSize bit < pulseWindow)
    (hslot : ∀ k ≤ g.runSize bit, log.slot (i + k) = ⟨g.isDataAt (x + k), UInt32.ofNat (y + k)⟩)
    (hplace : x % g.total = g.runStart bit) (hopens : (log.slot (i - 1)).bit ≠ bit)
    (hfirst : ∀ j, 0 < j → j < i → (log.slot j).bit = bit → (log.slot (j - 1)).bit = bit) :
    log.FirstRun bit i (g.runSize bit) where
  pos := hpos
  length_pos := runSize_pos hg bit
  fits := hfits
  first := hfirst
  opens := hopens
  kind := by
    intro k hk
    rw [hslot k hk.le]
    exact isDataAt_run hg hplace hk
  closes := by
    rw [hslot _ le_rfl]
    exact isDataAt_behind_run hg hplace
  follows := by
    intro k hk
    rw [Nat.add_assoc i k 1, hslot k hk.le, hslot (k + 1) hk]
    show UInt32.ofNat (y + k) + 1 = UInt32.ofNat (y + k + 1)
    exact (UInt32.ofNat_add (y + k) 1).symm

/-- A run that the slots show is the first one where no earlier slot opens one. -/
theorem firstRun_of_shows (hg : g.Valid) (hpos : 0 < i) (hfits : i + g.runSize bit < pulseWindow)
    (hshows : ∀ k ≤ g.runSize bit, log.Shows g base (i + k)) (hplace : (base + i) % g.total = g.runStart bit)
    (hopens : (log.slot (i - 1)).bit ≠ bit)
    (hfirst : ∀ j, 0 < j → j < i → (log.slot j).bit = bit → (log.slot (j - 1)).bit = bit) :
    log.FirstRun bit i (g.runSize bit) := by
  have hslot : ∀ k ≤ g.runSize bit,
      log.slot (i + k) = ⟨g.isDataAt (base + i + k), UInt32.ofNat (base + i + k)⟩ := by
    intro k hk
    rw [Nat.add_assoc]
    exact hshows k hk
  exact firstRun_of_run hg hpos hfits hslot hplace hopens hfirst

/-- Among slots that show a stretch of a sender, an edge is the start of a run. -/
theorem edge_iff_place (hg : g.Valid) (hbits : ∀ i < n, (log.slot i).bit = g.isDataAt (f + i)) (hpos : 0 < i)
    (hi : i < n) : (log.slot (i - 1)).bit ≠ bit ∧ (log.slot i).bit = bit ↔ (f + i) % g.total = g.runStart bit := by
  obtain ⟨j, rfl⟩ := Nat.exists_eq_succ_of_ne_zero hpos.ne'
  rw [Nat.succ_sub_one, hbits j (by omega), hbits (j + 1) hi]
  exact edge_iff hg (f + j) bit

/-- **What is reported once the first two groups of a window are there**: the geometry of the sender, whatever the
other slots hold. -/
theorem findPeriod_of_shows (hg : g.Valid) (hn : n ≤ pulseWindow) (hlong : 2 * g.total < n)
    (hshows : ∀ i < n, log.Shows g base i) (bit : Bool) : log.findPeriod bit = some (g.runSize bit) := by
  have hsize := runSize_lt_total hg bit
  obtain ⟨i, hpos, hle, hplace⟩ := exists_place (runStart_lt_total hg bit) base
  have hbits : ∀ j < n, (log.slot j).bit = g.isDataAt (base + j) := by
    intro j hj
    rw [hshows j hj]
  have hedge : ∀ j, 0 < j → j < n → ((log.slot (j - 1)).bit ≠ bit ∧ (log.slot j).bit = bit ↔
      (base + j) % g.total = g.runStart bit) := by
    intro j hpos hj
    exact edge_iff_place hg hbits hpos hj
  refine findPeriod_eq_some_iff.2 ⟨i, firstRun_of_shows hg hpos (by omega) ?_ hplace ?_ ?_⟩
  · intro k hk
    exact hshows (i + k) (by omega)
  · exact ((hedge i hpos (by omega)).2 hplace).1
  · -- an earlier edge would stand less than a group before this one
    intro j hj hji hbit
    by_contra hne
    have hplace' := (hedge j hj (by omega)).1 ⟨hne, hbit⟩
    have hmod : base + j ≡ base + i [MOD g.total] := hplace'.trans hplace.symm
    have hdvd := (Nat.modEq_iff_dvd' (by omega)).1 hmod
    have := Nat.le_of_dvd (by omega) hdvd
    omega

/-! ### A log that has been cleared -/

/-- A log that has been cleared to `base` and has taken note of `n` positions of a sender from the slot `f` on, where
a group starts. -/
structure Clean (log : PulseLog) (g : Geometry) (base f n : ℕ) : Prop where
  room : base + pulseWindow ≤ seqidLimit
  start : (base + f) % g.total = 0
  fits : f + n ≤ pulseWindow
  shows : ∀ i, f ≤ i → i < f + n → log.Shows g base i
  cleared : ∀ i, i < pulseWindow → (i < f ∨ f + n ≤ i) → log.slot i = ⟨false, UInt32.ofNat base⟩

theorem Clean.toNat_seq (h : log.Clean g base f n) (hi : i < pulseWindow) :
    (f ≤ i ∧ i < f + n ∧ (log.slot i).seq.toNat = base + i) ∨
      ((i < f ∨ f + n ≤ i) ∧ (log.slot i).seq.toNat = base) := by
  have hroom := h.room
  rw [seqidLimit] at hroom
  by_cases hin : f ≤ i ∧ i < f + n
  · refine .inl ⟨hin.1, hin.2, ?_⟩
    rw [h.shows i hin.1 hin.2]
    exact UInt32.toNat_ofNat_of_lt' (by rw [UInt32.size]; omega)
  · refine .inr ⟨by omega, ?_⟩
    rw [h.cleared i hi (by omega)]
    exact UInt32.toNat_ofNat_of_lt' (by rw [UInt32.size]; omega)

/-- Neighbours behind the first slot whose ids follow one another have not been cleared. -/
theorem Clean.of_follows (h : log.Clean g base f n) (hpos : 0 < i) (hi : i + 1 < pulseWindow)
    (hseq : (log.slot i).seq + 1 = (log.slot (i + 1)).seq) : f ≤ i ∧ i + 1 < f + n := by
  have hroom := h.room
  have hnat := congrArg UInt32.toNat hseq
  have hone : (1 : UInt32).toNat = 1 := rfl
  rw [seqidLimit] at hroom
  rw [pulseWindow] at hroom hi
  rw [UInt32.toNat_add, hone] at hnat
  rcases h.toNat_seq (i := i) (by rw [pulseWindow]; omega) with ⟨h1, h2, h3⟩ | ⟨h1, h2⟩ <;>
    rcases h.toNat_seq (i := i + 1) hi with ⟨h4, h5, h6⟩ | ⟨h4, h5⟩ <;> omega

/-- The edge that opens a run in a cleared log is the start of the run. -/
theorem Clean.place_of_edge (hg : g.Valid) (h : log.Clean g base f n) (hpos : 0 < i) (hlo : f ≤ i)
    (hhi : i < f + n) (hopens : (log.slot (i - 1)).bit ≠ bit) (hbit : (log.slot i).bit = bit) :
    (base + i) % g.total = g.runStart bit := by
  have hshows := h.shows i hlo hhi
  rw [hshows] at hbit
  rcases hlo.eq_or_lt with rfl | hlt
  · -- the first packet of all is the first one of a group
    have hdata : g.isDataAt (base + f) = true := by
      rw [isDataAt_eq_true_iff, h.start]
      exact hg.data_pos
    obtain rfl : bit = true := hbit.symm.trans hdata
    exact h.start
  · obtain ⟨j, rfl⟩ := Nat.exists_eq_succ_of_ne_zero hpos.ne'
    rw [Nat.succ_sub_one, h.shows j (by omega) (by omega)] at hopens
    exact (edge_iff hg (base + j) bit).1 ⟨hopens, hbit⟩

/-- **A cleared log reports no period but those of the sender.** -/
theorem findPeriod_clean (hg : g.Valid) (h : log.Clean g base f n) (hf : log.findPeriod bit = some m) :
    m = g.runSize bit := by
  obtain ⟨i, hrun⟩ := findPeriod_eq_some_iff.1 hf
  have hfits := hrun.fits
  have hpos := hrun.pos
  -- the ids follow one another, so no slot of the run has been cleared
  have hin : ∀ k ≤ m, f ≤ i + k ∧ i + k < f + n := by
    intro k hk
    rcases hk.eq_or_lt with rfl | hlt
    · obtain ⟨j, rfl⟩ := Nat.exists_eq_succ_of_ne_zero hrun.length_pos.ne'
      have := h.of_follows (i := i + j) (by omega) (by omega) (hrun.follows j (by omega))
      omega
    · have := h.of_follows (i := i + k) (by omega) (by omega) (hrun.follows k hlt)
      omega
  have hbit : ∀ k ≤ m, (log.slot (i + k)).bit = g.isDataAt (base + i + k) := by
    intro k hk
    rw [h.shows (i + k) (hin k hk).1 (hin k hk).2, Nat.add_assoc]
  -- it starts where a run of the sender starts, so it ends with it
  have hplace := h.place_of_edge hg hpos (hin 0 (Nat.zero_le _)).1 (hin 0 (Nat.zero_le _)).2 hrun.opens
    (hrun.kind 0 hrun.length_pos)
  rcases lt_trichotomy m (g.runSize bit) with hlt | heq | hlt
  · exact absurd ((hbit m le_rfl).trans (isDataAt_run hg hplace hlt)) hrun.closes
  · exact heq
  · exact absurd ((hbit _ hlt.le).symm.trans (hrun.kind _ hlt)) (isDataAt_behind_run hg hplace)

/-- The place of a position, counted from the first packet on. -/
theorem Clean.place_eq (h : log.Clean g base f n) (k : ℕ) : (base + (f + k)) % g.total = k % g.total := by
  rw [← Nat.add_assoc, Nat.add_mod, h.start, Nat.zero_add, Nat.mod_mod]

/-- The slot of the first edge of a kind, among those from `f` on. -/
structure FirstEdge (log : PulseLog) (g : Geometry) (base f : ℕ) (bit : Bool) (i : ℕ) : Prop where
  pos : 0 < i
  le : f ≤ i
  place : (base + i) % g.total = g.runStart bit
  opens : (log.slot (i - 1)).bit ≠ bit
  first : ∀ j, 0 < j → f ≤ j → j < i → (base + j) % g.total ≠ g.runStart bit

/-- The first edge of data is the first packet, or that of the second group where no slot is in front of the first. -/
theorem Clean.exists_data_edge (hg : g.Valid) (h : log.Clean g base f n) (hlong : g.total < n) :
    ∃ i, log.FirstEdge g base f true i ∧ i ≤ f + g.total := by
  obtain ⟨hd, hp, htotal⟩ := counts hg
  have hfits := h.fits
  rcases Nat.eq_zero_or_pos f with rfl | hf
  · have hend : (base + (g.total - 1)) % g.total = g.total - 1 := by
      have hplace := h.place_eq (g.total - 1)
      rwa [Nat.zero_add, Nat.mod_eq_of_lt (show g.total - 1 < g.total by omega)] at hplace
    refine ⟨g.total, ⟨by omega, Nat.zero_le _, ?_, ?_, ?_⟩, by omega⟩
    · have hplace := h.place_eq g.total
      rwa [Nat.zero_add, Nat.mod_self] at hplace
    · rw [h.shows (g.total - 1) (Nat.zero_le _) (by omega), ne_eq, Bool.not_eq_true, isDataAt_eq_false_iff, hend]
      omega
    · intro j hj _ hlt hzero
      have hplace := h.place_eq j
      rw [Nat.zero_add, Nat.mod_eq_of_lt hlt] at hplace
      exact hj.ne' (hplace.symm.trans hzero)
  · refine ⟨f, ⟨hf, le_rfl, h.start, ?_, by omega⟩, by omega⟩
    rw [h.cleared (f - 1) (by omega) (by omega)]
    exact Bool.false_ne_true

/-- The first edge of parity is that of the first group. -/
theorem Clean.parity_edge (hg : g.Valid) (h : log.Clean g base f n) (hlong : g.data < n) :
    log.FirstEdge g base f false (f + g.data) := by
  obtain ⟨hd, hp, htotal⟩ := counts hg
  refine ⟨by omega, by omega, ?_, ?_, ?_⟩
  · rw [h.place_eq]
    exact Nat.mod_eq_of_lt (by omega)
  · rw [h.shows (f + g.data - 1) (by omega) (by omega), Bool.ne_false_iff, isDataAt_eq_true_iff,
      Nat.add_sub_assoc hd, h.place_eq, Nat.mod_eq_of_lt (by omega)]
    omega
  · intro j _ hle hlt
    obtain ⟨k, rfl⟩ := Nat.exists_eq_add_of_le hle
    rw [h.place_eq, Nat.mod_eq_of_lt (by omega)]
    show k ≠ g.data
    omega

/-- **A cleared log reports the periods of the sender** once it has seen a group and a run of data behind it. -/
theorem findPeriod_of_clean (hg : g.Valid) (h : log.Clean g base f n) (hlong : g.total + g.data < n)
    (bit : Bool) : log.findPeriod bit = some (g.runSize bit) := by
  obtain ⟨hd, -, htotal⟩ := counts hg
  have hfits := h.fits
  obtain ⟨i, hedge, hin⟩ : ∃ i, log.FirstEdge g base f bit i ∧ i + g.runSize bit < f + n := by
    cases bit with
    | true =>
      obtain ⟨i, hedge, hle⟩ := h.exists_data_edge hg (by omega)
      exact ⟨i, hedge, by show i + g.data < f + n; omega⟩
    | false =>
      exact ⟨_, h.parity_edge hg (by omega), by show f + g.data + g.parity < f + n; omega⟩
  have hlo := hedge.le
  refine findPeriod_eq_some_iff.2 ⟨i, firstRun_of_shows hg hedge.pos (by omega) ?_ hedge.place hedge.opens ?_⟩
  · intro k hk
    exact h.shows (i + k) (by omega) (by omega)
  · intro j hj hji hbit
    by_contra hne
    by_cases hle : f ≤ j
    · exact hedge.first j hj hle hji (h.place_of_edge hg hj hle (by omega) hne hbit)
    · -- the slots in front of the first packet are all alike
      rw [h.cleared j (by omega) (by omega)] at hbit
      rw [h.cleared (j - 1) (by omega) (by omega)] at hne
      exact hne hbit

end PulseLog

namespace Decoder

open PacketFec.Geometry

variable {d : Decoder} {g : Geometry} {base x : ℕ} {bodies : ℕ → Bytes} {shared : Shared} {packet : Bytes}
  {shard : Shard} {t : Decoded}

/-- The log names a geometry if it reports both of its runs. -/
theorem detected_of_periods (hg : g.Valid) (h : ∀ bit, d.log.findPeriod bit = some (g.runSize bit)) :
    d.detected? = some g := by
  have hd := hg.data_pos
  have hp := hg.parity_pos
  have hle : g.data + g.parity ≤ 256 := hg.total_le
  have hdata : d.log.findPeriod true = some g.data := h true
  have hparity : d.log.findPeriod false = some g.parity := h false
  unfold detected?
  rw [hdata, hparity]
  simp only
  rw [if_pos ⟨hd, hp, by rw [maxPeriod]; omega, by rw [maxPeriod]; omega⟩]

theorem periods_of_detected (h : d.detected? = some g) (bit : Bool) :
    d.log.findPeriod bit = some (g.runSize bit) := by
  unfold detected? at h
  split at h
  · rename_i data parity hdata hparity
    split at h
    · cases h
      cases bit
      · exact hparity
      · exact hdata
    · cases h
  · cases h

/-- A position of a sender is at its place where the receiver's geometry has the same kind there. -/
theorem inPlace_shardAt (hg : g.Valid) (hlt : base + x < g.ceiling) :
    d.InPlace (g.shardAt base bodies x) ↔ d.geometry.isDataAt (base + x) = g.isDataAt (base + x) := by
  have hseq : (g.shardAt base bodies x).seqid.toNat = base + x :=
    (toNat_seqidAt hg base x).trans (Nat.mod_eq_of_lt hlt)
  have hkind : (g.shardAt base bodies x).kind = .data ↔ (base + x) % g.total < g.data := by
    show (if (base + x) % g.total < g.data then Kind.data else Kind.parity) = .data ↔ _
    split <;> simp [*]
  rw [InPlace, position, hseq, hkind, isDataAt, isDataAt, decide_eq_decide]

/-- The pulse that is noted at a position of a sender. -/
theorem log_noted_shardAt (hlt : base + x < g.ceiling) : (d.noted (g.shardAt base bodies x)).log =
    d.log.sample (g.isDataAt (base + x)) (UInt32.ofNat (base + x)) := by
  have hseq : (g.shardAt base bodies x).seqid = UInt32.ofNat (base + x) :=
    congrArg UInt32.ofNat (Nat.mod_eq_of_lt hlt)
  have hbit : (g.shardAt base bodies x).kind.isData = g.isDataAt (base + x) := by
    show (if (base + x) % g.total < g.data then Kind.data else Kind.parity).isData = decide _
    split <;> simp [Kind.isData, *]
  rw [noted, hseq, hbit]

/-- What a shard does to the geometry: nothing where it is at its place, or where the log names no other geometry.
Else the log names the geometry afterwards. -/
theorem Takes.geometry_cases (ht : d.Takes shared packet t) (hparse : Shard.parse packet = .ok shard) :
    (t.decoder.geometry = d.geometry ∧ t.decoder.retunes = d.retunes ∧
      (d.InPlace shard ∨ ∀ g, t.decoder.detected? = some g → g = t.decoder.geometry)) ∨
    ¬ d.InPlace shard ∧ t.decoder.retunes = d.retunes + 1 ∧
      t.decoder.detected? = some t.decoder.geometry := by
  rcases ht.of_parse hparse with ⟨hplace, ⟨hdec, -⟩ | ⟨-, b, hset⟩⟩ | ⟨hmis, -, ⟨hdec, hdet⟩ | ⟨g, hdet, -, hdec⟩⟩
  · rw [hdec]
    exact .inl ⟨rfl, rfl, .inl hplace⟩
  · rw [hset.decoder_eq]
    exact .inl ⟨rfl, rfl, .inl hplace⟩
  · rw [hdec]
    exact .inl ⟨rfl, rfl, .inr hdet⟩
  · rw [hdec]
    exact .inr ⟨hmis, rfl, hdet⟩

end Decoder

end PacketFec
