import Mathlib
import PacketFec.Proofs.Windows

/-!
# A receiver finds the geometry of its sender

A receiver may hold any geometry, and a log of anything, when it begins to hear a sender without loss. Its log is not
far from where the sender begins, so it opens a new window at the first multiple of the window size. From then on its
first slots show the sender, and as soon as these are two groups, the receiver changes to the sender's geometry
wherever its own one expects another kind. It cannot miss that, because two geometries that agree on the rest of the
window are the same.

* `PulseLog.Trails`: a log whose anchor is not far behind a sequence id.
* `Decoder.Hears`, `Decoder.Hears.next`: what holds of a receiver that hears a sender, and one packet of it.
* `Decoder.self_stabilises`: **whatever a receiver has heard before, it has the geometry of the sender after at most
  512 packets, and keeps it.**
-/

namespace PacketFec

namespace PulseLog

variable {log : PulseLog} {bit : Bool} {x q : UInt32} {b k : ℕ}

/-- The anchor, if there is one, is less than `k` behind a sequence id. -/
def Trails (log : PulseLog) (x : UInt32) (k : ℕ) : Prop :=
  log.anchored = true → (x - log.anchor).toNat < k

/-- The start of the window of an id is less than a window further away than the id. -/
theorem toNat_sub_windowBase (hfar : (x - q).toNat + pulseWindow ≤ k) (hk : k ≤ seqidLimit) :
    (x - windowBase q).toNat < k := by
  have hq := q.toNat_lt
  have hx := x.toNat_lt
  have hbase : (windowBase q).toNat = q.toNat - q.toNat % pulseWindow :=
    UInt32.toNat_ofNat_of_lt' (by rw [UInt32.size]; omega)
  have hlt : q.toNat % pulseWindow < pulseWindow := Nat.mod_lt _ (by decide)
  have hle := Nat.mod_le q.toNat pulseWindow
  have h256 : pulseWindow = 256 := rfl
  rw [seqidLimit] at hk
  rw [UInt32.toNat_sub] at hfar ⊢
  omega

/-- Pulses that are not far behind an id keep the anchor near it. -/
theorem Trails.sample (h : log.Trails x k) (hfar : (x - q).toNat + pulseWindow ≤ k) (hk : k ≤ seqidLimit)
    (bit : Bool) : (log.sample bit q).Trails x k := by
  have hpos : 0 < pulseWindow := by decide
  intro hanchored
  -- the anchor afterwards is the pulse, the start of its window, or the old one
  rcases sample_cases log bit q with ⟨heq, -⟩ | ⟨heq, hanch, -⟩ | ⟨heq, hanch, -⟩
  · rw [heq, anchor_write, anchor_reanchor]
    split
    · show (x - q).toNat < k
      omega
    · exact toNat_sub_windowBase hfar hk
  · rw [heq, anchor_write]
    split
    · show (x - q).toNat < k
      omega
    · exact h hanch
  · rw [heq]
    exact h hanch

theorem Trails.succ (h : log.Trails x k) (hk : k < seqidLimit) : log.Trails (x + 1) (k + 1) := by
  intro hanchored
  have hlt := h hanchored
  have hone : (1 : UInt32).toNat = 1 := rfl
  have hanchor := log.anchor.toNat_lt
  have hx := x.toNat_lt
  rw [seqidLimit] at hk
  rw [UInt32.toNat_sub] at hlt ⊢
  rw [UInt32.toNat_add, hone]
  omega

/-- A pulse at the start of a window, less than half of the circle ahead of the anchor, is written. -/
theorem shows_sample_start {g : Geometry} (h : log.Trails (UInt32.ofNat b) k) (hk : k ≤ 2147483648)
    (hb : b % pulseWindow = 0) (hlt : b < seqidLimit) :
    (log.sample (g.isDataAt b) (UInt32.ofNat b)).Shows g b 0 := by
  have hseq : (UInt32.ofNat b).toNat = b := UInt32.toNat_ofNat_of_lt' hlt
  have hplace : 0 = (UInt32.ofNat b).toNat % pulseWindow := by rw [hseq, hb]
  show PulseLog.slot _ 0 = ⟨g.isDataAt b, UInt32.ofNat b⟩
  rcases sample_cases log (g.isDataAt b) (UInt32.ofNat b) with ⟨heq, -⟩ | ⟨heq, -⟩ | ⟨-, hanchored, hbehind⟩
  · rw [heq, slot_write _ _ (by decide), if_pos hplace]
  · rw [heq, slot_write _ _ (by decide), if_pos hplace]
  · have := h hanchored
    omega

end PulseLog

namespace Decoder

open PacketFec.Geometry

variable {g g₀ : Geometry} {d d₀ e : Decoder} {shared shared₁ shared₂ : Shared} {t : Decoded} {bodies : ℕ → Bytes}
  {s n k : ℕ}

/-! ### Before the sender -/

/-- Whatever is heard not far behind a sequence id, the anchor stays near it. -/
theorem trails_after {past : List Bytes} {x : UInt32} (hd : d.Sound) (h : d.log.Trails x k) (hk : k ≤ seqidLimit)
    (hpast : ∀ p ∈ past, ∀ shard, Shard.parse p = .ok shard → (x - shard.seqid).toNat + pulseWindow ≤ k)
    (hafter : d.after shared past = .ok (e, shared₁)) : e.Sound ∧ e.log.Trails x k := by
  induction past generalizing d shared with
  | nil =>
    cases hafter
    exact ⟨hd, h⟩
  | cons packet rest ih =>
    rw [after] at hafter
    obtain ⟨t, hdec, hrest⟩ := Checked.bind_eq_ok.1 hafter
    have ht := decode_takes hd hdec
    refine ih (ht.sound hd) ?_ (fun p hp => hpast p (List.mem_cons_of_mem _ hp)) hrest
    cases hparse : Shard.parse packet with
    | error e =>
      rw [decode_of_parse_error hparse] at hdec
      cases hdec
      exact h
    | ok shard =>
      rw [ht.log_eq hparse]
      exact h.sample (hpast packet (List.mem_cons_self ..) shard hparse) hk _

/-! ### Hearing the sender -/

/-- The first multiple of the window size that is not below a sequence id. -/
@[irreducible] def nextWindow (s : ℕ) : ℕ := (s + 255) / 256 * 256

theorem nextWindow_mod (s : ℕ) : nextWindow s % pulseWindow = 0 := by
  unfold nextWindow
  exact Nat.mul_mod_left _ _

theorem le_nextWindow (s : ℕ) : s ≤ nextWindow s := by
  unfold nextWindow
  omega

theorem nextWindow_lt (s : ℕ) : nextWindow s < s + 256 := by
  unfold nextWindow
  omega

/-- A receiver that has heard the first `n` packets of a sender, from `s` on. The slots of the new window show the
sender, and as soon as these are two groups, the receiver has the sender's geometry, or one that expects the same
kinds as have come since. -/
structure Hears (d : Decoder) (g : Geometry) (s n : ℕ) : Prop where
  sound : d.Sound
  trails : d.log.Trails (UInt32.ofNat (s + n)) (2 ^ 30 + pulseWindow + n)
  anchored : 0 < n → d.log.anchored = true
  shows : ∀ i, nextWindow s + i < s + n → d.log.Shows g (nextWindow s) i
  agrees : d.geometry = g ∨ ∀ z, nextWindow s + 2 * g.total ≤ z → z < s + n →
    d.geometry.isDataAt z = g.isDataAt z

theorem hears_zero (hd : d.Sound) (h : d.log.Trails (UInt32.ofNat s) (2 ^ 30 + pulseWindow)) : d.Hears g s 0 where
  sound := hd
  trails := h
  anchored := nofun
  shows := by
    intro i hi
    have := le_nextWindow s
    omega
  agrees := by
    refine .inr ?_
    intro z hlo hhi
    have := le_nextWindow s
    omega

/-- What the slots of the new window show, one packet later. -/
theorem Hears.shows_sample (h : d.Hears g s n) (hroom : s + 512 ≤ seqidLimit)
    (hn : s + n < nextWindow s + pulseWindow) {i : ℕ} (hi : nextWindow s + i < s + n + 1) :
    (d.log.sample (g.isDataAt (s + n)) (UInt32.ofNat (s + n))).Shows g (nextWindow s) i := by
  have hnext := nextWindow_lt s
  have hle := le_nextWindow s
  have h256 : pulseWindow = 256 := rfl
  obtain ⟨j, hj⟩ : ∃ j, s + n = nextWindow s + j := Nat.exists_eq_add_of_le (by omega)
  rcases Nat.eq_zero_or_pos j with rfl | hpos
  · -- the first packet of the window
    obtain rfl : i = 0 := by omega
    have htrails := h.trails
    rw [hj] at htrails ⊢
    exact PulseLog.shows_sample_start htrails (by rw [h256]; omega) (nextWindow_mod s) (by omega)
  · -- a later one, and the first one is the anchor
    have hanchor : d.log.anchor = UInt32.ofNat (nextWindow s) := by
      rw [PulseLog.anchor_eq, h.shows 0 (by omega)]
      rfl
    rw [PulseLog.Shows, hj, PulseLog.slot_sample (h.anchored (by omega)) hanchor (nextWindow_mod s) (by omega)
      (by omega) _ (by omega)]
    split
    · rename_i hij
      rw [hij]
    · exact h.shows i (by omega)

/-- What the geometry expects, one packet later. -/
theorem Hears.agrees_next (hg : g.Valid) (h : d.Hears g s n) (hlt : s + n < g.ceiling)
    (ht : d.Takes shared (g.packetAt s bodies n) t)
    (hnames : nextWindow s + 2 * g.total ≤ s + n → t.decoder.detected? = some g) :
    t.decoder.geometry = g ∨ ∀ z, nextWindow s + 2 * g.total ≤ z → z < s + n + 1 →
      t.decoder.geometry.isDataAt z = g.isDataAt z := by
  have hparse := parse_packetAt g s bodies n
  rcases h.agrees with hsame | hagree
  · -- the receiver of the sender's geometry keeps it
    have hplace : d.InPlace (g.shardAt s bodies n) := (inPlace_shardAt hg hlt).2 (by rw [hsame])
    rcases ht.geometry_cases hparse with ⟨hgeo, -⟩ | ⟨hmis, -⟩
    · exact .inl (hgeo.trans hsame)
    · exact absurd hplace hmis
  by_cases hlong : nextWindow s + 2 * g.total ≤ s + n
  swap
  · refine .inr ?_
    intro z hlo hhi
    omega
  -- the packet is at its place in the receiver's geometry, or the receiver has what the log names
  rcases ht.geometry_cases hparse with ⟨hgeo, -, hplace | hdet⟩ | ⟨-, -, hdet⟩
  · refine .inr ?_
    intro z hlo hhi
    rw [hgeo]
    rcases (Nat.le_of_lt_succ hhi).eq_or_lt with rfl | hlt'
    · exact (inPlace_shardAt hg hlt).1 hplace
    · exact hagree z hlo hlt'
  · exact .inl (hdet g (hnames hlong)).symm
  · exact .inl (Option.some.inj (hdet.symm.trans (hnames hlong)))

/-- **One packet of the sender.** -/
theorem Hears.next (hg : g.Valid) (h : d.Hears g s n) (hroom : s + 512 ≤ g.ceiling)
    (hn : s + n < nextWindow s + pulseWindow) (ht : d.Takes shared (g.packetAt s bodies n) t) :
    t.decoder.Hears g s (n + 1) := by
  have hnext := nextWindow_lt s
  have hlimit := ceiling_lt g
  have h256 : pulseWindow = 256 := rfl
  have hlt : s + n < g.ceiling := by omega
  have hlog : t.decoder.log = d.log.sample (g.isDataAt (s + n)) (UInt32.ofNat (s + n)) :=
    (ht.log_eq (parse_packetAt g s bodies n)).trans (log_noted_shardAt hlt)
  have hshows : ∀ i, nextWindow s + i < s + n + 1 → t.decoder.log.Shows g (nextWindow s) i := by
    intro i hi
    rw [hlog]
    exact h.shows_sample (by omega) hn hi
  refine ⟨ht.sound h.sound, ?_, ?_, hshows, h.agrees_next hg hlt ht ?_⟩
  · have hself : (UInt32.ofNat (s + n) - UInt32.ofNat (s + n)).toNat = 0 := by rw [UInt32.sub_self]; rfl
    have hkept := h.trails.sample (q := UInt32.ofNat (s + n)) (by omega) (by rw [seqidLimit]; omega)
      (g.isDataAt (s + n))
    have hone : UInt32.ofNat (s + (n + 1)) = UInt32.ofNat (s + n) + 1 := UInt32.ofNat_add (s + n) 1
    rw [hlog, hone]
    exact hkept.succ (by rw [seqidLimit]; omega)
  · intro _
    rw [hlog]
    exact PulseLog.anchored_sample _ _ _
  · -- behind two groups of the window, the log names the sender's geometry
    intro hlong
    refine detected_of_periods hg ?_
    exact PulseLog.findPeriod_of_shows (n := s + n + 1 - nextWindow s) hg (by omega) (by omega)
      (fun i hi => hshows i (by omega))

/-- **Packets of the sender**, up to the end of the new window. -/
theorem hears_after (hg : g.Valid) (h : d.Hears g s 0) (hroom : s + 512 ≤ g.ceiling)
    (hn : s + n ≤ nextWindow s + pulseWindow) (hafter : d.after shared (g.stream s bodies n) = .ok (e, shared₁)) :
    e.Hears g s n := by
  induction n generalizing e shared₁ with
  | zero =>
    cases hafter
    exact h
  | succ n ih =>
    rw [stream_succ] at hafter
    obtain ⟨e', shared', t, hafter', hdec, heq⟩ := after_concat_eq_ok.1 hafter
    cases heq
    have hears := ih (by omega) hafter'
    exact hears.next hg hroom (by omega) (decode_takes hears.sound hdec)

/-- The receiver has the geometry of the sender at the end of the window, if this has room for four groups. -/
theorem Hears.geometry_eq (hg : g.Valid) (h : d.Hears g s n) (hsmall : 4 * g.total ≤ 255)
    (hn : nextWindow s + pulseWindow ≤ s + n) : d.geometry = g := by
  have hpos := total_pos hg
  have h256 : pulseWindow = 256 := rfl
  rcases h.agrees with hsame | hagree
  · exact hsame
  · -- the third group of the window that is complete starts at most three groups behind the start of the window
    obtain ⟨j, hj, hle, hmod⟩ := exists_place hpos (nextWindow s + 2 * g.total)
    refine eq_of_agree hg h.sound.valid (Nat.dvd_of_mod_eq_zero hmod) (by omega) ?_
    intro z hlo hhi
    exact hagree z (by omega) (by omega)

/-- **A receiver finds the geometry of its sender, whatever it has heard before.** Let it start with any geometry, and
hear any packets with sequence ids less than 2^30 behind `s`. Then it hears a sender whose groups fit into the window
four times, from `s` on and without loss. It has the sender's geometry after at most 512 packets, and keeps it without
a further change, whatever it hears from then on of what fits that geometry. Only its count of changes must not be
about to overflow. -/
theorem self_stabilises {past : List Bytes} {s : UInt32} (hg : g.Valid) (hsmall : 4 * g.total ≤ 255)
    (hroom : s.toNat + 512 ≤ g.ceiling) (hnew : create g₀ = .ok d₀)
    (hpast : ∀ p ∈ past, ∀ shard, Shard.parse p = .ok shard → (s - shard.seqid).toNat < 2 ^ 30)
    (hreach : d₀.after shared past = .ok (d, shared₁)) (hcount : d.retunes + 512 < wordLimit)
    (bodies : ℕ → Bytes) :
    ∃ n ≤ 512, ∃ e shared₂, d.after shared₁ (g.stream s.toNat bodies n) = .ok (e, shared₂) ∧ e.geometry = g ∧
      ∀ later, (∀ p ∈ later, g.Fits p) → ∃ f shared₃, e.after shared₂ later = .ok (f, shared₃) ∧
        f.geometry = g ∧ f.retunes = e.retunes := by
  obtain ⟨hg₀, rfl⟩ := create_eq_ok_iff.1 hnew
  have hle := le_nextWindow s.toNat
  have hlt := nextWindow_lt s.toNat
  have h256 : pulseWindow = 256 := rfl
  have hs : UInt32.ofNat s.toNat = s := UInt32.ofNat_toNat
  have hsound : Sound ⟨g₀, [], none, .empty, 0⟩ := ⟨hg₀, nofun⟩
  -- before the sender, the anchor stays near the sequence id where it begins
  obtain ⟨hd, htrails⟩ := trails_after (k := 2 ^ 30 + pulseWindow) (x := s) hsound (fun h => by cases h) (by decide) (by
    intro p hp shard hparse
    have := hpast p hp shard hparse
    omega) hreach
  -- the receiver hears the sender up to the end of the new window
  have hlen : (g.stream s.toNat bodies (nextWindow s.toNat + 256 - s.toNat)).length =
      nextWindow s.toNat + 256 - s.toNat := by rw [stream, List.length_map, List.length_range]
  obtain ⟨e, shared₂, hafter, he, -⟩ := after_sound hd (g.stream s.toNat bodies (nextWindow s.toNat + 256 - s.toNat))
    (by omega) shared₁
  have hears := hears_after hg (hears_zero (g := g) hd (hs.symm ▸ htrails)) hroom (by omega) hafter
  have hgeo := hears.geometry_eq hg hsmall (by omega)
  refine ⟨nextWindow s.toNat + 256 - s.toNat, by omega, e, shared₂, hafter, hgeo, ?_⟩
  intro later hfits
  obtain ⟨f, shared₃, hlater, -, hgeo', hret⟩ := after_fitting he (hgeo.symm ▸ hfits) shared₂
  exact ⟨f, shared₃, hlater, hgeo'.trans hgeo, hret⟩

set_option maxRecDepth 20000 in
/-- A receiver of another geometry that has heard two shards of other traffic. -/
theorem self_stabilises_of_other_traffic : ∃ d₀ d shared₁, create ⟨3, 1⟩ = .ok d₀ ∧
    d₀.after ⟨.create 16 8, .zero⟩ [[0, 0, 0, 0, 241, 0, 7], [41, 1, 0, 0, 242, 0, 8]] = .ok (d, shared₁) ∧
    ∃ n ≤ 512, ∃ e shared₂,
      d.after shared₁ ((⟨2, 1⟩ : Geometry).stream (300 : UInt32).toNat (fun _ => []) n) = .ok (e, shared₂) ∧
      e.geometry = ⟨2, 1⟩ ∧ ∀ later, (∀ p ∈ later, (⟨2, 1⟩ : Geometry).Fits p) → ∃ f shared₃,
        e.after shared₂ later = .ok (f, shared₃) ∧ f.geometry = ⟨2, 1⟩ ∧ f.retunes = e.retunes := by
  obtain ⟨d₀, d, shared₁, hnew, hreach, hret⟩ : ∃ d₀ d shared₁, create ⟨3, 1⟩ = .ok d₀ ∧
      d₀.after ⟨.create 16 8, .zero⟩ [[0, 0, 0, 0, 241, 0, 7], [41, 1, 0, 0, 242, 0, 8]] = .ok (d, shared₁) ∧
      d.retunes = 0 := ⟨_, _, _, rfl, rfl, rfl⟩
  have hroom : (300 : UInt32).toNat + 512 ≤ (⟨2, 1⟩ : Geometry).ceiling := by decide +kernel
  have hcount : d.retunes + 512 < wordLimit := by rw [hret]; decide +kernel
  exact ⟨d₀, d, shared₁, hnew, hreach, self_stabilises (s := 300) (by decide) (by decide) hroom hnew
    (by decide +kernel) hreach hcount _⟩

end Decoder

end PacketFec
