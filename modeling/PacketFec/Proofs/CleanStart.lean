import Mathlib
import PacketFec.Proofs.Windows

/-!
# A new receiver adopts the geometry of its sender once

A new receiver that hears a sender from the start of a group on, early enough in a window, has a log that shows
nothing but the sender. Such a log names no geometry but that of the sender, and it names it as soon as it shows a
group and a run of data. So the receiver changes at most once, and it does so before the third group is over, since
otherwise its own geometry would agree with the sender's on a whole group.

* `PulseLog.clean_sample_first`, `PulseLog.Clean.sample`: a new log that hears a sender.
* `Decoder.Starts`, `Decoder.Starts.next`: what holds of a new receiver that hears a sender, and one packet of it.
* `Decoder.adopts_once`: **a new receiver changes to the geometry of its sender exactly once.**
-/

namespace PacketFec

namespace PulseLog

variable {log : PulseLog} {g : Geometry} {base f n s : ℕ}

/-- The first pulse of a new log. -/
theorem clean_sample_first (hnew : log.anchored = false) (hdvd : g.total ∣ s) (hs : s < seqidLimit) :
    (log.sample (g.isDataAt s) (UInt32.ofNat s)).Clean g (s - s % pulseWindow) (s % pulseWindow) 1 := by
  have hle := Nat.mod_le s pulseWindow
  have hlt : s % pulseWindow < pulseWindow := Nat.mod_lt _ (by decide)
  have hsum : s - s % pulseWindow + s % pulseWindow = s := Nat.sub_add_cancel hle
  have hseq : (UInt32.ofNat s).toNat = s := UInt32.toNat_ofNat_of_lt' hs
  have heq : log.sample (g.isDataAt s) (UInt32.ofNat s) =
      (reanchor (UInt32.ofNat s)).write ⟨g.isDataAt s, UInt32.ofNat s⟩ := by
    rcases sample_cases log (g.isDataAt s) (UInt32.ofNat s) with ⟨heq, -⟩ | ⟨-, hanchored, -⟩ | ⟨-, hanchored, -⟩
    · exact heq
    · rw [hnew] at hanchored
      cases hanchored
    · rw [hnew] at hanchored
      cases hanchored
  rw [heq]
  constructor
  · show s - s % 256 + 256 ≤ 4294967296
    rw [seqidLimit] at hs
    omega
  · rw [hsum]
    exact Nat.mod_eq_zero_of_dvd hdvd
  · exact hlt
  · intro i hlo hhi
    obtain rfl : i = s % pulseWindow := by omega
    rw [Shows, slot_write _ _ hlt, hseq, if_pos rfl, hsum]
  · intro i hi hout
    rw [slot_write _ _ hi, hseq, if_neg (by omega), slot_reanchor _ hi, windowBase, hseq]

/-- The anchor of a cleared log. -/
theorem Clean.anchor_eq (h : log.Clean g base f n) (hpos : 0 < n) : log.anchor = UInt32.ofNat base := by
  rw [PulseLog.anchor_eq]
  rcases Nat.eq_zero_or_pos f with rfl | hf
  · rw [h.shows 0 le_rfl (by omega), Nat.add_zero]
  · rw [h.cleared 0 (by decide) (.inl hf)]

/-- The next pulse of the sender. -/
theorem Clean.sample (h : log.Clean g base f n) (hpos : 0 < n) (hanchored : log.anchored = true)
    (hbase : base % pulseWindow = 0) (hfit : f + n < pulseWindow) :
    (log.sample (g.isDataAt (base + (f + n))) (UInt32.ofNat (base + (f + n)))).Clean g base f (n + 1) := by
  have hslot := fun {i} => slot_sample (i := i) hanchored (h.anchor_eq hpos) hbase h.room hfit
    (g.isDataAt (base + (f + n)))
  refine ⟨h.room, h.start, hfit, ?_, ?_⟩
  · intro i hlo hhi
    rw [Shows, hslot (by omega)]
    split
    · rename_i heq
      rw [heq]
    · exact h.shows i hlo (by omega)
  · intro i hi hout
    rw [hslot hi, if_neg (by omega)]
    exact h.cleared i hi (by omega)

end PulseLog

namespace Decoder

open PacketFec.Geometry

variable {g g₀ g' : Geometry} {d d₀ e : Decoder} {shared shared' : Shared} {t : Decoded} {bodies : ℕ → Bytes}
  {base f s m n : ℕ}

/-- A cleared log names no geometry but that of the sender. -/
theorem eq_of_detected_of_clean (hg : g.Valid) (h : d.log.Clean g base f n) (hdet : d.detected? = some g') :
    g' = g := by
  have hsize : ∀ bit, g'.runSize bit = g.runSize bit :=
    fun bit => PulseLog.findPeriod_clean hg h (periods_of_detected hdet bit)
  have hdata : g'.data = g.data := hsize true
  have hparity : g'.parity = g.parity := hsize false
  cases g
  cases g'
  exact congrArg₂ Geometry.mk hdata hparity

/-- A new receiver that has heard the first `n` packets of a sender, from `s` on. It has its first geometry, and then
this expects the kinds that have come since the log names the sender's; or it has the geometry of the sender. -/
structure Starts (d : Decoder) (g₀ g : Geometry) (s n : ℕ) : Prop where
  sound : d.Sound
  fresh : n = 0 → d.log.anchored = false
  anchored : 0 < n → d.log.anchored = true
  clean : 0 < n → d.log.Clean g (s - s % pulseWindow) (s % pulseWindow) n
  geometry : (d.geometry = g₀ ∧ d.retunes = 0 ∧
      ∀ z, s + g.total + g.data ≤ z → z < s + n → g₀.isDataAt z = g.isDataAt z) ∨
    d.geometry = g ∧ d.retunes = 1

theorem starts_zero (hnew : create g₀ = .ok d₀) (g : Geometry) (s : ℕ) : d₀.Starts g₀ g s 0 := by
  obtain ⟨hg₀, rfl⟩ := create_eq_ok_iff.1 hnew
  refine ⟨⟨hg₀, nofun⟩, fun _ => rfl, nofun, nofun, .inl ⟨rfl, rfl, ?_⟩⟩
  intro z hlo hhi
  omega

/-- What the log shows, one packet later. -/
theorem Starts.clean_sample (h : d.Starts g₀ g s n) (hdvd : g.total ∣ s) (hs : s < seqidLimit)
    (hfit : s % pulseWindow + n < pulseWindow) :
    (d.log.sample (g.isDataAt (s + n)) (UInt32.ofNat (s + n))).Clean g (s - s % pulseWindow) (s % pulseWindow)
      (n + 1) := by
  rcases Nat.eq_zero_or_pos n with rfl | hpos
  · exact PulseLog.clean_sample_first (h.fresh rfl) hdvd hs
  · have hsum : s - s % pulseWindow + (s % pulseWindow + n) = s + n := by
      have := Nat.mod_le s pulseWindow
      omega
    have hbase : (s - s % pulseWindow) % pulseWindow = 0 := Nat.mod_eq_zero_of_dvd (Nat.dvd_sub_mod s)
    have hnext := (h.clean hpos).sample hpos (h.anchored hpos) hbase hfit
    rwa [hsum] at hnext

/-- **One packet of the sender.** -/
theorem Starts.next (hg : g.Valid) (h : d.Starts g₀ g s n) (hdvd : g.total ∣ s)
    (hfit : s % pulseWindow + n < pulseWindow) (hlt : s + n < g.ceiling)
    (ht : d.Takes shared (g.packetAt s bodies n) t) : t.decoder.Starts g₀ g s (n + 1) := by
  have hlimit := ceiling_lt g
  have hparse := parse_packetAt g s bodies n
  have hlog : t.decoder.log = d.log.sample (g.isDataAt (s + n)) (UInt32.ofNat (s + n)) :=
    (ht.log_eq hparse).trans (log_noted_shardAt hlt)
  have hclean : t.decoder.log.Clean g (s - s % pulseWindow) (s % pulseWindow) (n + 1) := by
    rw [hlog]
    exact h.clean_sample hdvd (by omega) hfit
  refine ⟨ht.sound h.sound, nofun, fun _ => hlog ▸ PulseLog.anchored_sample _ _ _, fun _ => hclean, ?_⟩
  rcases h.geometry with ⟨hgeo, hret, hagree⟩ | ⟨hgeo, hret⟩
  · -- the receiver still has its first geometry, and keeps it or takes what the log names
    rcases ht.geometry_cases hparse with ⟨hgeo', hret', hkept⟩ | ⟨-, hret', hdet⟩
    · refine .inl ⟨hgeo'.trans hgeo, hret'.trans hret, ?_⟩
      intro z hlo hhi
      rcases (Nat.le_of_lt_succ hhi).eq_or_lt with rfl | hlt'
      · rcases hkept with hplace | hdet
        · rw [← hgeo]
          exact (inPlace_shardAt hg hlt).1 hplace
        · -- the log names the sender's geometry, so it is the receiver's
          have hnames := detected_of_periods hg (PulseLog.findPeriod_of_clean hg hclean (by omega))
          rw [hdet g hnames, hgeo', hgeo]
      · exact hagree z hlo hlt'
    · exact .inr ⟨eq_of_detected_of_clean hg hclean hdet, by rw [hret', hret]⟩
  · -- the receiver of the sender's geometry keeps it
    have hplace : d.InPlace (g.shardAt s bodies n) := (inPlace_shardAt hg hlt).2 (by rw [hgeo])
    rcases ht.geometry_cases hparse with ⟨hgeo', hret', -⟩ | ⟨hmis, -⟩
    · exact .inr ⟨hgeo'.trans hgeo, hret'.trans hret⟩
    · exact absurd hplace hmis

/-- **The first packets of the sender**, up to the end of the third group. -/
theorem starts_after (hg : g.Valid) (hnew : create g₀ = .ok d₀) (hdvd : g.total ∣ s)
    (hwindow : s % 256 + 3 * g.total ≤ 255) (hroom : s + 3 * g.total < g.ceiling) (hn : n ≤ 3 * g.total + 1)
    (shared : Shared) (bodies : ℕ → Bytes) :
    ∃ d shared', d₀.after shared (g.stream s bodies n) = .ok (d, shared') ∧ d.Starts g₀ g s n := by
  have h256 : pulseWindow = 256 := rfl
  induction n with
  | zero => exact ⟨d₀, shared, rfl, starts_zero hnew g s⟩
  | succ n ih =>
    obtain ⟨d, shared', hafter, h⟩ := ih (by omega)
    have hcount : d.retunes + 1 < wordLimit := by
      rw [wordLimit]
      rcases h.geometry with ⟨-, hret, -⟩ | ⟨-, hret⟩ <;> omega
    obtain ⟨t, hdec, -⟩ := decode_sound h.sound hcount shared' (g.packetAt s bodies n)
    refine ⟨t.decoder, t.shared, ?_, h.next hg hdvd (by rw [h256]; omega) (by omega) (decode_takes h.sound hdec)⟩
    rw [stream_succ]
    exact after_concat_eq_ok.2 ⟨d, shared', t, hafter, hdec, rfl⟩

/-- At the end of the third group the receiver has the geometry of the sender. -/
theorem Starts.geometry_eq (hg : g.Valid) (hg₀ : g₀.Valid) (h : d.Starts g₀ g s (3 * g.total + 1))
    (hdvd : g.total ∣ s) : d.geometry = g := by
  obtain ⟨-, hp, htotal⟩ := counts hg
  rcases h.geometry with ⟨hgeo, -, hagree⟩ | ⟨hgeo, -⟩
  · rw [hgeo]
    refine eq_of_agree hg hg₀ (a := s + 2 * g.total) (hdvd.add (Dvd.intro_left 2 rfl)) (by omega) ?_
    intro z hlo hhi
    exact hagree z (by omega) (by omega)
  · exact hgeo

/-- A receiver of the geometry of the sender keeps it. -/
theorem stream_after (hg : g.Valid) (h : d.Sound) (hgeo : d.geometry = g)
    (hafter : d₀.after shared (g.stream s bodies m) = .ok (d, shared')) (hmn : m ≤ n) :
    ∃ e shared₁, d₀.after shared (g.stream s bodies n) = .ok (e, shared₁) ∧ e.Sound ∧ e.geometry = g ∧
      e.retunes = d.retunes := by
  induction n, hmn using Nat.le_induction with
  | base => exact ⟨d, shared', hafter, h, hgeo, rfl⟩
  | succ n _ ih =>
    obtain ⟨e, shared₁, hafter', he, hgeo', hret⟩ := ih
    have hfits : e.geometry.Fits (g.packetAt s bodies n) := by
      rw [hgeo']
      exact fits_packetAt hg s bodies n
    obtain ⟨t, hdec, ht, hgeo₁, hret₁⟩ := decode_fitting he hfits shared₁
    refine ⟨t.decoder, t.shared, ?_, ht, hgeo₁.trans hgeo', hret₁.trans hret⟩
    rw [stream_succ]
    exact after_concat_eq_ok.2 ⟨e, shared₁, t, hafter', hdec, rfl⟩

open Classical in
/-- What does not hold at first and holds at `n` begins to hold at some point. -/
theorem exists_switch {P : ℕ → Prop} (hzero : ¬ P 0) (hn : P n) : ∃ m < n, (∀ k ≤ m, ¬ P k) ∧ P (m + 1) := by
  have hex : ∃ k, P k := ⟨n, hn⟩
  have hle : Nat.find hex ≤ n := Nat.find_le hn
  have hspec := Nat.find_spec hex
  cases hfind : Nat.find hex with
  | zero =>
    rw [hfind] at hspec
    exact absurd hspec hzero
  | succ m =>
    rw [hfind] at hspec hle
    refine ⟨m, hle, ?_, hspec⟩
    intro k hk
    exact Nat.find_min hex (by omega)

/-- **A new receiver changes to the geometry of its sender exactly once.** Let a sender begin with a group early
enough in a window that three groups fit into it, and lose nothing. A new receiver of another geometry keeps that up
to some packet of the first three groups, or the one behind them. Behind this packet it has the sender's geometry, and
has changed once, from then on. A new receiver of the sender's geometry never changes. -/
theorem adopts_once (hg : g.Valid) (hnew : create g₀ = .ok d₀) (hdvd : g.total ∣ s)
    (hwindow : s % 256 + 3 * g.total ≤ 255) (hroom : s + 3 * g.total < g.ceiling) (shared : Shared)
    (bodies : ℕ → Bytes) :
    (g₀ ≠ g → ∃ m ≤ 3 * g.total, ∀ n, ∃ d shared', d₀.after shared (g.stream s bodies n) = .ok (d, shared') ∧
      (n ≤ m → d.geometry = g₀ ∧ d.retunes = 0) ∧ (m < n → d.geometry = g ∧ d.retunes = 1)) ∧
    (g₀ = g → ∀ n, ∃ d shared', d₀.after shared (g.stream s bodies n) = .ok (d, shared') ∧
      d.geometry = g ∧ d.retunes = 0) := by
  have hstarts := starts_zero hnew g s
  have hnew' := create_eq_ok_iff.1 hnew
  refine ⟨?_, ?_⟩
  · intro hne
    -- the receiver has the sender's geometry for the first time behind `m + 1` packets
    obtain ⟨m, hm, hbefore, d, shared', hafter, hgeo⟩ := exists_switch
      (P := fun n => ∃ d shared', d₀.after shared (g.stream s bodies n) = .ok (d, shared') ∧ d.geometry = g)
      (by
        rintro ⟨d, shared', hafter, hgeo⟩
        cases hafter
        rw [hnew'.2] at hgeo
        exact hne hgeo)
      (by
        obtain ⟨d, shared', hafter, h⟩ := starts_after hg hnew hdvd hwindow hroom le_rfl shared bodies
        exact ⟨d, shared', hafter, h.geometry_eq hg hnew'.1 hdvd⟩)
    refine ⟨m, Nat.le_of_lt_succ hm, ?_⟩
    intro n
    rcases Nat.lt_or_ge m n with hlt | hle
    · obtain ⟨d₁, shared₁, hafter₁, h⟩ := starts_after hg hnew hdvd hwindow hroom (n := m + 1) hm shared bodies
      cases hafter.symm.trans hafter₁
      have hret : d.retunes = 1 := by
        rcases h.geometry with ⟨hgeo₀, -⟩ | ⟨-, hret⟩
        · exact absurd (hgeo₀.symm.trans hgeo) hne
        · exact hret
      obtain ⟨e, shared₂, hafter₂, -, hgeo₂, hret₂⟩ := stream_after hg h.sound hgeo hafter hlt
      exact ⟨e, shared₂, hafter₂, fun _ => by omega, fun _ => ⟨hgeo₂, hret₂.trans hret⟩⟩
    · obtain ⟨d₁, shared₁, hafter₁, h⟩ := starts_after hg hnew hdvd hwindow hroom (n := n) (by omega) shared bodies
      refine ⟨d₁, shared₁, hafter₁, fun _ => ?_, fun _ => by omega⟩
      rcases h.geometry with ⟨hgeo₁, hret₁, -⟩ | ⟨hgeo₁, -⟩
      · exact ⟨hgeo₁, hret₁⟩
      · exact absurd ⟨d₁, shared₁, hafter₁, hgeo₁⟩ (hbefore n hle)
  · rintro rfl n
    have hafter₀ : d₀.after shared (g₀.stream s bodies 0) = .ok (d₀, shared) := rfl
    obtain ⟨d, shared', hafter, -, hgeo, hret⟩ := stream_after hg hstarts.sound (by rw [hnew'.2]) hafter₀
      (Nat.zero_le n)
    exact ⟨d, shared', hafter, hgeo, hret.trans (by rw [hnew'.2])⟩

/-- A receiver that expects a data shard too many, and a sender that begins in the middle of a window. -/
theorem adopts_once_of_longer_group : (⟨3, 1⟩ : Geometry) ≠ ⟨2, 1⟩ ∧ ∃ d₀, create ⟨3, 1⟩ = .ok d₀ ∧
    ∃ m ≤ 3 * (⟨2, 1⟩ : Geometry).total, ∀ n, ∃ d shared',
      d₀.after ⟨.create 16 8, .zero⟩ ((⟨2, 1⟩ : Geometry).stream 300 (fun _ => [7]) n) = .ok (d, shared') ∧
      (n ≤ m → d.geometry = ⟨3, 1⟩ ∧ d.retunes = 0) ∧ (m < n → d.geometry = ⟨2, 1⟩ ∧ d.retunes = 1) :=
  ⟨by decide, _, rfl, (adopts_once (by decide) rfl (by decide) (by decide) (by decide +kernel) _ _).1 (by decide)⟩

end Decoder

end PacketFec
