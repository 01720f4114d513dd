import Mathlib
import PacketFec.PulseLog

/-!
# Periods, slot by slot

The pulse log as a sequence of slots. A period is reported exactly if the first pulse of its kind that follows one of
the other kind opens a run of that length, whose sequence ids follow one another up to the pulse behind it. Taking
note of a pulse clears all slots, or writes one, or does nothing.

* `PulseLog.RunFrom`, `PulseLog.EdgeAt`: what the scans of a list stop at.
* `PulseLog.slot`: the pulse in a slot.
* `PulseLog.FirstRun`, `PulseLog.findPeriod_eq_some_iff`: **what a reported period says about the slots.**
* `PulseLog.FirstRun.leftEdge?_eq`: the run opens at the left edge that the scan stops at.
* `PulseLog.periods_add_le`: **periods of both kinds fit into the window together.**
* `PulseLog.sample_cases`, `PulseLog.slot_sample`: **what taking note of a pulse does.**
-/

namespace PacketFec

namespace PulseLog

variable {log : PulseLog} {bit : Bool} {i n : ℕ} {p last left : Pulse} {l after : List Pulse} {seq : UInt32}

/-- The pulse at the left edge of the first run of a kind. -/
def leftEdge? (log : PulseLog) (bit : Bool) : Option Pulse :=
  match log.pulses.toList with
  | [] => none
  | first :: rest => (fromEdge bit first rest).map Prod.fst

/-! ### Runs -/

/-- The pulse at a place of a list of slots. -/
def nth (l : List Pulse) (i : ℕ) : Pulse := l.getD i ⟨false, 0⟩

theorem nth_drop (l : List Pulse) (i k : ℕ) : nth (l.drop i) k = nth l (i + k) := by
  rw [nth, nth, List.getD_eq_getElem?_getD, List.getD_eq_getElem?_getD, List.getElem?_drop]

/-- A run of `n` pulses at the front of a list. The kind of the first pulse is left open; the ids follow one another up
to the pulse behind the run. -/
structure RunFrom (bit : Bool) (l : List Pulse) (n : ℕ) : Prop where
  pos : 0 < n
  lt : n < l.length
  kind : ∀ k, 0 < k → k < n → (nth l k).bit = bit
  closes : (nth l n).bit ≠ bit
  follows : ∀ k < n, (nth l k).seq + 1 = (nth l (k + 1)).seq

/-- The run goes on behind the second pulse if that is of the kind, and ends in front of it otherwise. -/
theorem runFrom_cons_cons_iff : RunFrom bit (last :: p :: l) (n + 1) ↔
    last.seq + 1 = p.seq ∧ if p.bit = bit then RunFrom bit (p :: l) n else n = 0 := by
  by_cases hbit : p.bit = bit
  · rw [if_pos hbit]
    constructor
    · intro h
      have hn : 0 < n := by
        rcases Nat.eq_zero_or_pos n with rfl | hn
        · exact absurd hbit h.closes
        · exact hn
      exact ⟨h.follows 0 h.pos, hn, Nat.lt_of_succ_lt_succ h.lt,
        fun k hk hkn => h.kind (k + 1) (Nat.succ_pos k) (Nat.succ_lt_succ hkn), h.closes,
        fun k hk => h.follows (k + 1) (Nat.succ_lt_succ hk)⟩
    · rintro ⟨hseq, h⟩
      refine ⟨Nat.succ_pos n, Nat.succ_lt_succ h.lt, ?_, h.closes, ?_⟩
      · rintro (_ | _ | k) hk hkn
        · omega
        · exact hbit
        · exact h.kind (k + 1) (Nat.succ_pos k) (Nat.lt_of_succ_lt_succ hkn)
      · rintro (_ | k) hk
        · exact hseq
        · exact h.follows k (Nat.lt_of_succ_lt_succ hk)
  · rw [if_neg hbit]
    constructor
    · intro h
      refine ⟨h.follows 0 h.pos, ?_⟩
      -- a longer run would have the second pulse in it
      by_contra hn
      exact hbit (h.kind 1 Nat.one_pos (by omega))
    · rintro ⟨hseq, rfl⟩
      refine ⟨Nat.one_pos, by simp, by omega, hbit, ?_⟩
      rintro (_ | k) hk
      · exact hseq
      · omega

/-- The count of a run is that of the run at the front. -/
theorem runLength_eq_some_iff : runLength bit last l = some n ↔ RunFrom bit (last :: l) n := by
  induction l generalizing last n with
  | nil =>
    refine iff_of_false (by simp [runLength]) ?_
    intro h
    have hpos := h.pos
    have hlt := h.lt
    rw [List.length_singleton] at hlt
    omega
  | cons p rest ih =>
    rw [runLength]
    cases n with
    | zero =>
      refine iff_of_false ?_ fun h => Nat.lt_irrefl 0 h.pos
      split_ifs <;> simp
    | succ n =>
      rw [runFrom_cons_cons_iff]
      by_cases hseq : last.seq + 1 = p.seq
      · by_cases hbit : p.bit = bit
        · simp [hseq, hbit, ih]
        · simp [hseq, hbit]
      · simp [hseq]

/-- The first left edge of a kind: the pulse at a place opens a run, and none in front of it does. -/
structure EdgeAt (bit : Bool) (l : List Pulse) (i : ℕ) : Prop where
  pos : 0 < i
  lt : i < l.length
  first : ∀ j, 0 < j → j < i → (nth l j).bit = bit → (nth l (j - 1)).bit = bit
  opens : (nth l (i - 1)).bit ≠ bit
  kind : (nth l i).bit = bit

/-- The second pulse opens a run, or the edge stands further on, at the same pulse of the rest. -/
theorem edgeAt_cons_cons_iff : EdgeAt bit (last :: p :: l) (i + 1) ↔
    if last.bit ≠ bit ∧ p.bit = bit then i = 0 else EdgeAt bit (p :: l) i := by
  by_cases hedge : last.bit ≠ bit ∧ p.bit = bit
  · rw [if_pos hedge]
    constructor
    · intro h
      by_contra hi
      exact hedge.1 (h.first 1 Nat.one_pos (by omega) hedge.2)
    · rintro rfl
      exact ⟨Nat.one_pos, by simp, by omega, hedge.1, hedge.2⟩
  · rw [if_neg hedge]
    constructor
    · intro h
      obtain ⟨i, rfl⟩ : ∃ k, i = k + 1 := by
        refine Nat.exists_eq_succ_of_ne_zero ?_
        rintro rfl
        exact hedge ⟨h.opens, h.kind⟩
      refine ⟨Nat.succ_pos i, Nat.lt_of_succ_lt_succ h.lt, ?_, h.opens, h.kind⟩
      rintro (_ | j) hj hji hbit
      · omega
      · exact h.first (j + 2) (Nat.succ_pos _) (Nat.succ_lt_succ hji) hbit
    · intro h
      obtain ⟨i, rfl⟩ := Nat.exists_eq_succ_of_ne_zero h.pos.ne'
      refine ⟨Nat.succ_pos _, Nat.succ_lt_succ h.lt, ?_, h.opens, h.kind⟩
      rintro (_ | _ | j) hj hji hbit
      · omega
      · by_contra hlast
        exact hedge ⟨hlast, hbit⟩
      · exact h.first (j + 1) (Nat.succ_pos j) (Nat.lt_of_succ_lt_succ hji) hbit

/-- The scan stops at the first left edge. -/
theorem fromEdge_eq_some_iff : fromEdge bit last l = some (left, after) ↔
    ∃ i, EdgeAt bit (last :: l) i ∧ left :: after = (last :: l).drop i := by
  induction l generalizing last with
  | nil =>
    refine iff_of_false (by simp [fromEdge]) ?_
    rintro ⟨i, h, -⟩
    have hpos := h.pos
    have hlt := h.lt
    rw [List.length_singleton] at hlt
    omega
  | cons p rest ih =>
    have hshift : (∃ i, EdgeAt bit (last :: p :: rest) i ∧ left :: after = (last :: p :: rest).drop i) ↔
        ∃ i, EdgeAt bit (last :: p :: rest) (i + 1) ∧ left :: after = (p :: rest).drop i := by
      constructor
      · rintro ⟨i, h, hdrop⟩
        obtain ⟨i, rfl⟩ := Nat.exists_eq_succ_of_ne_zero h.pos.ne'
        exact ⟨i, h, hdrop⟩
      · rintro ⟨i, h, hdrop⟩
        exact ⟨i + 1, h, hdrop⟩
    rw [fromEdge, hshift]
    simp only [edgeAt_cons_cons_iff]
    by_cases hedge : last.bit ≠ bit ∧ p.bit = bit
    · simp only [if_pos hedge, exists_eq_left, List.drop_zero, Option.some.injEq, Prod.mk.injEq, List.cons.injEq]
      exact and_congr eq_comm eq_comm
    · simp only [if_neg hedge]
      exact ih

/-! ### Slots -/

/-- The pulse in a slot of the window. -/
def slot (log : PulseLog) (i : ℕ) : Pulse := nth log.pulses.toList i

theorem getElem?_slot (log : PulseLog) (hi : i < pulseWindow) : log.pulses.toList[i]? = some (log.slot i) := by
  have hlt : i < log.pulses.toList.length := by rwa [Vector.length_toList]
  rw [slot, nth, List.getD_eq_getElem _ _ hlt, List.getElem?_eq_getElem hlt]

theorem pulseAt_eq (log : PulseLog) (seq : UInt32) : log.pulseAt seq = log.slot (seq.toNat % pulseWindow) := by
  have hlt : seq.toNat % pulseWindow < log.pulses.toList.length := by
    rw [Vector.length_toList]
    exact Nat.mod_lt _ (by decide)
  rw [slot, nth, List.getD_eq_getElem _ _ hlt, Vector.getElem_toList]
  rfl

/-- The first run of a kind in the window: it has `n` pulses from slot `i` on. -/
structure FirstRun (log : PulseLog) (bit : Bool) (i n : ℕ) : Prop where
  pos : 0 < i
  length_pos : 0 < n
  fits : i + n < pulseWindow
  first : ∀ j, 0 < j → j < i → (log.slot j).bit = bit → (log.slot (j - 1)).bit = bit
  opens : (log.slot (i - 1)).bit ≠ bit
  kind : ∀ k < n, (log.slot (i + k)).bit = bit
  closes : (log.slot (i + n)).bit ≠ bit
  follows : ∀ k < n, (log.slot (i + k)).seq + 1 = (log.slot (i + k + 1)).seq

/-- The slots from one on. -/
theorem slot_cons_drop (log : PulseLog) (hi : i < pulseWindow) :
    log.slot i :: log.pulses.toList.drop (i + 1) = log.pulses.toList.drop i := by
  have hlt : i < log.pulses.toList.length := by rwa [Vector.length_toList]
  rw [List.drop_eq_getElem_cons hlt, slot, nth, List.getD_eq_getElem _ _ hlt]

theorem nth_drop_slot (log : PulseLog) (i k : ℕ) : nth (log.pulses.toList.drop i) k = log.slot (i + k) := nth_drop _ i k

theorem length_drop_slot (log : PulseLog) (i : ℕ) : (log.pulses.toList.drop i).length = pulseWindow - i := by
  rw [List.length_drop, Vector.length_toList]

/-- The window is not empty. -/
theorem exists_pulses (log : PulseLog) : ∃ head rest, log.pulses.toList = head :: rest :=
  List.exists_cons_of_length_pos (by rw [Vector.length_toList]; decide)

theorem slot_eq_nth {head : Pulse} {rest : List Pulse} (hl : log.pulses.toList = head :: rest) (i : ℕ) :
    log.slot i = nth (head :: rest) i := by rw [slot, hl]

/-- The scan for a kind stops at the slot that opens the first run. -/
theorem FirstRun.fromEdge_eq {head : Pulse} {rest : List Pulse} (h : log.FirstRun bit i n)
    (hl : log.pulses.toList = head :: rest) :
    fromEdge bit head rest = some (log.slot i, log.pulses.toList.drop (i + 1)) := by
  have hfits := h.fits
  have hlen : (head :: rest).length = pulseWindow := hl ▸ Vector.length_toList
  refine fromEdge_eq_some_iff.2 ⟨i, ⟨h.pos, by omega, ?_, ?_, ?_⟩, by rw [slot_cons_drop log (by omega), hl]⟩
  · intro j hj hji
    rw [← slot_eq_nth hl, ← slot_eq_nth hl]
    exact h.first j hj hji
  · rw [← slot_eq_nth hl]
    exact h.opens
  · rw [← slot_eq_nth hl]
    exact h.kind 0 h.length_pos

/-- **The first run opens at the left edge.** -/
theorem FirstRun.leftEdge?_eq (h : log.FirstRun bit i n) : log.leftEdge? bit = some (log.slot i) := by
  obtain ⟨head, rest, hl⟩ := exists_pulses log
  have hedge := h.fromEdge_eq hl
  unfold leftEdge?
  rw [hl]
  simp only [hedge, Option.map_some]

theorem FirstRun.findPeriod_eq (h : log.FirstRun bit i n) : log.findPeriod bit = some n := by
  have hfits := h.fits
  obtain ⟨head, rest, hl⟩ := exists_pulses log
  have hedge := h.fromEdge_eq hl
  have hnth : ∀ k, nth (log.slot i :: log.pulses.toList.drop (i + 1)) k = log.slot (i + k) := by
    intro k
    rw [slot_cons_drop log (by omega), nth_drop_slot]
  have hrun : runLength bit (log.slot i) (log.pulses.toList.drop (i + 1)) = some n := by
    refine runLength_eq_some_iff.2 ⟨h.length_pos, ?_, ?_, ?_, ?_⟩
    · rw [slot_cons_drop log (by omega), length_drop_slot]
      omega
    · intro k _ hk
      rw [hnth]
      exact h.kind k hk
    · rw [hnth]
      exact h.closes
    · intro k hk
      rw [hnth, hnth, ← Nat.add_assoc]
      exact h.follows k hk
  unfold findPeriod
  rw [hl]
  simp only [hedge]
  exact hrun

theorem exists_firstRun (h : log.findPeriod bit = some n) : ∃ i, log.FirstRun bit i n := by
  obtain ⟨head, rest, hl⟩ := exists_pulses log
  unfold findPeriod at h
  rw [hl] at h
  cases hedge : fromEdge bit head rest with
  | none =>
    simp only [hedge] at h
    cases h
  | some v =>
    obtain ⟨left, after⟩ := v
    simp only [hedge] at h
    obtain ⟨i, hat, hdrop⟩ := fromEdge_eq_some_iff.1 hedge
    have hrun := runLength_eq_some_iff.1 h
    have hlt := hrun.lt
    -- the pulses from the edge on are the slots from slot `i` on
    have hnth : ∀ k, nth (left :: after) k = log.slot (i + k) := by
      intro k
      rw [hdrop, ← hl, nth_drop_slot]
    rw [hdrop, ← hl, length_drop_slot] at hlt
    refine ⟨i, hat.pos, hrun.pos, by omega, ?_, ?_, ?_, ?_, ?_⟩
    · intro j hj hji
      rw [slot_eq_nth hl, slot_eq_nth hl]
      exact hat.first j hj hji
    · rw [slot_eq_nth hl]
      exact hat.opens
    · intro k hk
      rcases Nat.eq_zero_or_pos k with rfl | hk'
      · rw [Nat.add_zero, slot_eq_nth hl]
        exact hat.kind
      · rw [← hnth]
        exact hrun.kind k hk' hk
    · rw [← hnth]
      exact hrun.closes
    · intro k hk
      rw [Nat.add_assoc, ← hnth, ← hnth]
      exact hrun.follows k hk

/-- **A period is reported exactly if the first run of its kind has that length.** -/
theorem findPeriod_eq_some_iff : log.findPeriod bit = some n ↔ ∃ i, log.FirstRun bit i n := by
  constructor
  · exact exists_firstRun
  · rintro ⟨i, h⟩
    exact h.findPeriod_eq

/-- **Two reported periods, one of each kind, leave two slots of the window over**: their runs share no slot, and neither
the first slot nor the last one belongs to a run. -/
theorem periods_add_le {d p : ℕ} (hd : log.findPeriod true = some d) (hp : log.findPeriod false = some p) :
    d + p + 2 ≤ pulseWindow := by
  obtain ⟨i, hi⟩ := findPeriod_eq_some_iff.1 hd
  obtain ⟨j, hj⟩ := findPeriod_eq_some_iff.1 hp
  have hiw := hi.fits
  have hjw := hj.fits
  have hipos := hi.pos
  have hjpos := hj.pos
  -- the run that starts later would open inside the other one, with the wrong kind
  have hapart : i + d ≤ j ∨ j + p ≤ i := by
    by_contra hmeet
    rw [not_or, not_le, not_le] at hmeet
    rcases le_total i j with hle | hle
    · have hdata := hi.kind (j - i) (by omega)
      have hparity := hj.kind 0 hj.length_pos
      rw [Nat.add_sub_cancel' hle] at hdata
      rw [Nat.add_zero, hdata] at hparity
      cases hparity
    · have hparity := hj.kind (i - j) (by omega)
      have hdata := hi.kind 0 hi.length_pos
      rw [Nat.add_sub_cancel' hle] at hparity
      rw [Nat.add_zero, hparity] at hdata
      cases hdata
  omega

/-! ### Taking note of a pulse -/

theorem anchor_eq (log : PulseLog) : log.anchor = (log.slot 0).seq := congrArg Pulse.seq (pulseAt_eq log 0)

theorem slot_write (log : PulseLog) (p : Pulse) (hi : i < pulseWindow) :
    (log.write p).slot i = if i = p.seq.toNat % pulseWindow then p else log.slot i := by
  have hset : (log.write p).pulses.toList = log.pulses.toList.set (p.seq.toNat % pulseWindow) p :=
    Vector.toList_set (Nat.mod_lt _ (by decide))
  have hlen : log.pulses.toList.length = pulseWindow := Vector.length_toList
  rw [slot, slot, nth, nth, hset, List.getD_eq_getElem?_getD, List.getD_eq_getElem?_getD, List.getElem?_set]
  by_cases heq : i = p.seq.toNat % pulseWindow
  · rw [if_pos heq.symm, if_pos heq, if_pos (by omega), Option.getD_some]
  · rw [if_neg (Ne.symm heq), if_neg heq]

/-- The slots of a log in which all are the same. -/
theorem slot_replicate (p : Pulse) (anchored : Bool) (hi : i < pulseWindow) :
    slot ⟨.replicate pulseWindow p, anchored⟩ i = p := by
  rw [slot, nth, Vector.toList_replicate, List.getD_eq_getElem?_getD, List.getElem?_replicate_of_lt hi,
    Option.getD_some]

theorem slot_reanchor (seq : UInt32) (hi : i < pulseWindow) :
    (reanchor seq).slot i = ⟨false, windowBase seq⟩ := slot_replicate _ _ hi

/-- **What taking note of a pulse does.** It clears the log first where the pulse is more than a window ahead of the
anchor, and it ignores a pulse that is behind the anchor. -/
theorem sample_cases (log : PulseLog) (bit : Bool) (seq : UInt32) :
    log.sample bit seq = (reanchor seq).write ⟨bit, seq⟩ ∧
        (log.anchored = false ∨ pulseWindow < (seq - log.anchor).toNat) ∨
      log.sample bit seq = log.write ⟨bit, seq⟩ ∧ log.anchored = true ∧
        (seq - log.anchor).toNat ≤ pulseWindow ∨
      log.sample bit seq = log ∧ log.anchored = true ∧ 2147483648 ≤ (seq - log.anchor).toNat := by
  have hdist := Serial.seqDistance_eq seq log.anchor
  have hlt := (seq - log.anchor).toNat_lt
  have h256 : pulseWindow = 256 := rfl
  unfold sample
  simp only
  split
  · rename_i hfar
    rw [Bool.or_eq_true, Bool.not_eq_true', decide_eq_true_eq] at hfar
    refine .inl ⟨rfl, hfar.imp_right fun hfar => ?_⟩
    split at hdist <;> omega
  rename_i hnear
  rw [Bool.or_eq_true, Bool.not_eq_true', decide_eq_true_eq, not_or, Bool.not_eq_false] at hnear
  split
  · exact .inr (.inr ⟨rfl, hnear.1, by split at hdist <;> omega⟩)
  · exact .inr (.inl ⟨rfl, hnear.1, by split at hdist <;> omega⟩)

theorem anchor_write (log : PulseLog) (p : Pulse) :
    (log.write p).anchor = if p.seq.toNat % pulseWindow = 0 then p.seq else log.anchor := by
  rw [anchor_eq, anchor_eq, slot_write log p (by decide)]
  by_cases h : p.seq.toNat % pulseWindow = 0
  · rw [if_pos h.symm, if_pos h]
  · rw [if_neg (Ne.symm h), if_neg h]

theorem anchor_reanchor (seq : UInt32) : (reanchor seq).anchor = windowBase seq := by
  rw [anchor_eq, slot_reanchor seq (by decide)]

theorem toNat_succ (s : UInt32) : (s + 1).toNat % pulseWindow = (s.toNat + 1) % pulseWindow := by
  have hone : (1 : UInt32).toNat = 1 := rfl
  rw [UInt32.toNat_add, hone, Nat.mod_mod_of_dvd _ (by decide)]

theorem toNat_windowBase (seq : UInt32) : (windowBase seq).toNat % pulseWindow = 0 := by
  have hlt := seq.toNat_lt
  have hsub : seq.toNat - seq.toNat % pulseWindow < UInt32.size := by
    rw [UInt32.size]
    omega
  rw [windowBase, UInt32.toNat_ofNat_of_lt' hsub]
  exact Nat.mod_eq_zero_of_dvd (Nat.dvd_sub_mod _)

/-- A pulse that is up to a window ahead of the anchor is written. -/
theorem sample_of_near (hanchored : log.anchored = true) (hnear : (seq - log.anchor).toNat ≤ pulseWindow)
    (bit : Bool) : log.sample bit seq = log.write ⟨bit, seq⟩ := by
  have h256 : pulseWindow = 256 := rfl
  rcases sample_cases log bit seq with ⟨-, hfar | hfar⟩ | ⟨heq, -, -⟩ | ⟨-, -, hbehind⟩
  · rw [hanchored] at hfar
    cases hfar
  · omega
  · exact heq
  · omega

/-- An id is less than a window ahead of the start of its window. -/
theorem toNat_sub_windowBase_self (seq : UInt32) : (seq - windowBase seq).toNat = seq.toNat % pulseWindow := by
  have hlt := seq.toNat_lt
  have hle := Nat.mod_le seq.toNat pulseWindow
  have hbase : (windowBase seq).toNat = seq.toNat - seq.toNat % pulseWindow :=
    UInt32.toNat_ofNat_of_lt' (by rw [UInt32.size]; omega)
  rw [UInt32.toNat_sub, hbase]
  omega

/-- The slot of a pulse of the window that starts at `base`. -/
theorem slot_of_base {base k : ℕ} (hbase : base % pulseWindow = 0) (hk : k < pulseWindow) :
    (base + k) % pulseWindow = k := by
  rw [Nat.add_mod, hbase, Nat.zero_add, Nat.mod_mod, Nat.mod_eq_of_lt hk]

/-- A pulse in the window behind the anchor is written into its slot, and the other slots stay. -/
theorem slot_sample {base k : ℕ} (hanchored : log.anchored = true) (hanchor : log.anchor = UInt32.ofNat base)
    (hbase : base % pulseWindow = 0) (hroom : base + pulseWindow ≤ seqidLimit) (hk : k < pulseWindow) (bit : Bool)
    (hi : i < pulseWindow) : (log.sample bit (UInt32.ofNat (base + k))).slot i =
      if i = k then ⟨bit, UInt32.ofNat (base + k)⟩ else log.slot i := by
  have h256 : pulseWindow = 256 := rfl
  have hlimit : seqidLimit = 4294967296 := rfl
  have hseq : (UInt32.ofNat (base + k)).toNat = base + k :=
    UInt32.toNat_ofNat_of_lt' (by rw [UInt32.size]; omega)
  have hbase' : (UInt32.ofNat base).toNat = base := UInt32.toNat_ofNat_of_lt' (by rw [UInt32.size]; omega)
  have hahead : (UInt32.ofNat (base + k) - log.anchor).toNat = k := by
    rw [hanchor, UInt32.toNat_sub, hseq, hbase']
    omega
  have hplace := slot_of_base hbase hk
  -- the pulse is less than a window ahead, so it neither clears the log nor is ignored
  rcases sample_cases log bit (UInt32.ofNat (base + k)) with ⟨-, hfar⟩ | ⟨heq, -, -⟩ | ⟨-, -, hbehind⟩
  · rw [hanchored, hahead] at hfar
    rcases hfar with hfar | hfar
    · cases hfar
    · omega
  · rw [heq, slot_write log _ hi, hseq, hplace]
  · omega

/-- A log that has taken note of a pulse is anchored. -/
theorem anchored_sample (log : PulseLog) (bit : Bool) (seq : UInt32) : (log.sample bit seq).anchored = true := by
  rcases sample_cases log bit seq with ⟨heq, -⟩ | ⟨heq, hanchored, -⟩ | ⟨heq, hanchored, -⟩
  · rw [heq]
    rfl
  · rw [heq]
    exact hanchored
  · rw [heq]
    exact hanchored

end PulseLog

end PacketFec
