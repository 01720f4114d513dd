import Mathlib
import PacketFec.Proofs.Isolation
import PacketFec.Proofs.Repetition

/-!
# A receiver that changes its geometry is as good as new

A receiver keeps its geometry, its sets and its floor apart from one another. When its log names another geometry, all
of them must be replaced at once: a set with the slots of the old geometry, or a floor on the old scale of groups, would
only show much later. What it does not replace are its log and the count of its changes, and traffic that fits its
geometry lets a receiver use neither.

* `Decoder.relabelled`, `Decoder.receive_relabelled`: a shard at its place is taken in the same way **whatever the log
  and the count of changes are**.
* `Decoder.Abreast`: receivers that the user cannot tell apart, up to that count. `Abreast.decode` is about one packet.
* `Decoder.watch`, `Abreast.watch`: what the user sees of a receiver, call by call, **is the same over any traffic**.
* `Decoder.decode_starting_over`: the receiver and the pool behind a change of the geometry.
* `Decoder.resynchronises`: **behind a change of the geometry nobody can tell a receiver from a new one.**
-/

namespace PacketFec

/-- What taking a shard gives, with another log and another count of changes. -/
def Decoded.relabelled (t : Decoded) (log : PulseLog) (n : ℕ) : Decoded :=
  { t with decoder := { t.decoder with log, retunes := n } }

/-- What the user of a receiver sees behind a call. -/
structure Sight where
  /-- The rebuilt bodies. -/
  bodies : List Bytes
  floor : Option ℕ
  tracked : ℕ
  membership : ℕ → Option ℕ

/-- What the user sees of what taking a shard gives. -/
def Decoded.sight (t : Decoded) : Sight :=
  ⟨t.recovered.map (·.bytes), t.decoder.floor, t.decoder.tracked, t.decoder.membership⟩

/-- Results in a relation, of which one is the image of another one. -/
theorem Agree.of_map {α β γ : Type} {R : α → γ → Prop} {f : β → γ} {x : Except Error α} {y : Except Error β}
    (h : Agree R x (y.map f)) : Agree (fun a b => R a (f b)) x y := by
  cases y with
  | error e =>
    cases h
    exact .error e
  | ok b =>
    cases h with
    | ok hab => exact .ok hab

namespace Decoder

variable {d e : Decoder} {g : Geometry} {shared s s' : Shared} {t u : Decoded} {packet : Bytes}

/-! ### What the log is not used for -/

/-- The receiver with another log, and another count of the changes of its geometry. -/
def relabelled (d : Decoder) (log : PulseLog) (n : ℕ) : Decoder := { d with log, retunes := n }

section

variable (d : Decoder) (shared : Shared) (shard : Shard) (log : PulseLog) (n : ℕ)

@[simp] theorem geometry_relabelled : (d.relabelled log n).geometry = d.geometry := rfl

@[simp] theorem groupId_relabelled : (d.relabelled log n).groupId shard = d.groupId shard := rfl

@[simp] theorem position_relabelled : (d.relabelled log n).position shard = d.position shard := rfl

@[simp] theorem setOf_relabelled : (d.relabelled log n).setOf shard = d.setOf shard := rfl

@[simp] theorem behind_relabelled (group groups : ℕ) :
    (d.relabelled log n).behind group groups = d.behind group groups := rfl

theorem raiseFloor_relabelled (group groups : ℕ) : (d.relabelled log n).raiseFloor shared group groups =
    ((d.raiseFloor shared group groups).1.relabelled log n, (d.raiseFloor shared group groups).2) := by
  unfold raiseFloor relabelled
  dsimp only
  split <;> split <;> rfl

theorem evict_relabelled (groups : ℕ) : (d.relabelled log n).evict shared groups =
    ((d.evict shared groups).1.relabelled log n, (d.evict shared groups).2) := by
  unfold evict relabelled
  dsimp only
  split <;> rfl

theorem place_relabelled (group position : ℕ) (set : ShardSet) :
    (d.relabelled log n).place shared shard group position set =
      (d.place shared shard group position set).map (·.relabelled log n) := by
  unfold place relabelled
  generalize (if shard.kind = .parity then shared.count .parityShards 1 else shared) = counted
  dsimp only
  by_cases hfull : d.geometry.data ≤ (set.insert position ((counted.pool.acquire.1.hold []).hold shard.bytes)).members
  · rw [if_pos hfull, if_pos hfull]
    cases reconstruct d.geometry _ _ <;> rfl
  · rw [if_neg hfull, if_neg hfull]
    rfl

/-- **A shard at its place is taken in the same way whatever the log is.** -/
theorem receive_relabelled (hg : d.geometry.Valid) :
    (d.relabelled log n).receive shared shard = (d.receive shared shard).map (·.relabelled log n) := by
  rw [receive_eq hg, receive_eq (d := d.relabelled log n) hg]
  simp only [behind_relabelled, groupId_relabelled, position_relabelled, setOf_relabelled, geometry_relabelled,
    place_relabelled]
  split
  · rfl
  cases (d.setOf shard).absorbs (d.position shard) with
  | error e => rfl
  | ok absorbed =>
    cases absorbed with
    | true => rfl
    | false =>
      cases d.place shared shard (d.groupId shard) (d.position shard) (d.setOf shard) with
      | error e => rfl
      | ok taken =>
        have hdecoder : (taken.relabelled log n).decoder = taken.decoder.relabelled log n := rfl
        have hshared : (taken.relabelled log n).shared = taken.shared := rfl
        simp only [Except.map, Checked.ok_bind, Bool.false_eq_true, if_false, hdecoder, hshared,
          raiseFloor_relabelled, evict_relabelled]
        rfl

end

/-! ### Receivers that show the same -/

/-- Receivers that differ in their logs, in their counts of changes, and in the memory behind their sets. -/
def Abreast (d e : Decoder) : Prop := d.Alike (e.relabelled d.log d.retunes)

theorem abreast_of_idle (hd : d.sets = []) (he : e.sets = []) (hgeo : e.geometry = d.geometry)
    (hfloor : e.floor = d.floor) : d.Abreast e where
  geometry_eq := hgeo
  floor_eq := hfloor
  log_eq := rfl
  retunes_eq := rfl
  sets := by
    rw [hd, relabelled, he]
    exact .nil

theorem Abreast.noted (h : d.Abreast e) (shard : Shard) : (d.noted shard).Abreast (e.noted shard) :=
  ⟨h.geometry_eq, h.floor_eq, rfl, rfl, h.sets⟩

/-- Receivers that are abreast show the same. -/
theorem Abreast.sight_eq (h : t.decoder.Abreast u.decoder)
    (hbodies : u.recovered.map (·.bytes) = t.recovered.map (·.bytes)) : u.sight = t.sight := by
  have hview := h.view_eq
  rw [view, view, View.receiver.injEq] at hview
  obtain ⟨-, hfloor, htracked, -, hmembership⟩ := hview
  rw [Decoded.sight, Decoded.sight, hbodies, ← hfloor, ← htracked, ← hmembership]
  rfl

/-- **A packet that fits.** Receivers that are abreast take it, give the same bodies, and stay abreast. -/
theorem Abreast.decode (h : d.Abreast e) (hd : d.Sound) (he : e.Sound) (hfits : d.geometry.Fits packet)
    (s s' : Shared) : ∃ t u, d.decode s packet = .ok t ∧ e.decode s' packet = .ok u ∧ t.decoder.Abreast u.decoder ∧
      t.decoder.Sound ∧ u.decoder.Sound ∧ t.decoder.geometry = d.geometry ∧ u.sight = t.sight := by
  have hgeometry : e.geometry = d.geometry := h.geometry_eq
  obtain ⟨t, hdec, hsound, hgeo, -⟩ := decode_fitting hd hfits s
  obtain ⟨u, hdec', hsound', -⟩ := decode_fitting he (hgeometry ▸ hfits) s'
  suffices htaken : t.decoder.Abreast u.decoder ∧ u.recovered.map (·.bytes) = t.recovered.map (·.bytes) from
    ⟨t, u, hdec, hdec', htaken.1, hsound, hsound', hgeo, htaken.1.sight_eq htaken.2⟩
  cases hparse : Shard.parse packet with
  | error err =>
    rw [decode_of_parse_error hparse] at hdec hdec'
    cases hdec
    cases hdec'
    exact ⟨h, rfl⟩
  | ok shard =>
    obtain ⟨-, hbytes, hlong⟩ := parse_eq_ok hparse
    have hplace : d.InPlace shard := (inPlace_iff hd.valid shard).2 (hfits shard hparse)
    have hplace' : e.InPlace shard := by rwa [InPlace, position, hgeometry]
    rw [(decode_eq hd.valid hparse s).trans (if_pos hplace)] at hdec
    rw [(decode_eq he.valid hparse s').trans (if_pos hplace')] at hdec'
    -- both put it away as if their logs were the same
    have hreceive : Agree SameOutcome ((d.noted shard).receive s shard)
        (((e.noted shard).relabelled (d.noted shard).log (d.noted shard).retunes).receive s' shard) :=
      (h.noted shard).receive (hd.noted shard) ⟨he.valid, he.sets⟩ (by rwa [hbytes])
    rw [receive_relabelled _ _ _ _ _ (he.noted shard).valid, hdec, hdec'] at hreceive
    cases hreceive.of_map with
    | ok hsame =>
      obtain ⟨halike, hbodies⟩ := hsame
      exact ⟨⟨halike.geometry_eq, halike.floor_eq, rfl, rfl, halike.sets⟩, hbodies⟩

/-- What the user of a receiver sees of packets, call by call. -/
def watch (d : Decoder) (shared : Shared) : List Bytes → Except Error (List Sight)
  | [] => .ok []
  | packet :: rest => do
    let t ← d.decode shared packet
    return t.sight :: (← t.decoder.watch t.shared rest)

/-- **Any traffic that fits.** Receivers that are abreast take all of it, and show the same at every call. -/
theorem Abreast.watch (h : d.Abreast e) (hd : d.Sound) (he : e.Sound) {packets : List Bytes}
    (hfits : ∀ p ∈ packets, d.geometry.Fits p) (s s' : Shared) :
    ∃ seen, d.watch s packets = .ok seen ∧ e.watch s' packets = .ok seen := by
  induction packets generalizing d e s s' with
  | nil => exact ⟨[], rfl, rfl⟩
  | cons packet rest ih =>
    obtain ⟨t, u, hdec, hdec', hnext, ht, hu, hgeo, hsight⟩ :=
      h.decode hd he (hfits packet (List.mem_cons_self ..)) s s'
    obtain ⟨seen, hseen, hseen'⟩ := ih hnext ht hu
      (fun p hp => hgeo ▸ hfits p (List.mem_cons_of_mem _ hp)) t.shared u.shared
    refine ⟨t.sight :: seen, ?_, ?_⟩
    · rw [Decoder.watch, hdec, Checked.ok_bind, hseen]
      rfl
    · rw [Decoder.watch, hdec', Checked.ok_bind, hseen', hsight]
      rfl

/-! ### Behind a change of the geometry -/

/-- **The receiver and the pool behind a packet that changes the geometry.** -/
theorem decode_starting_over (hd : d.Sound) (hstarts : d.StartsOver packet)
    (hdec : d.decode shared packet = .ok t) : ∃ shard g, g.Valid ∧
      t = ⟨(d.noted shard).retuned g,
        ((shared.release d.sets.buffers).gauge .shardSets 0).gauge .shardMin 0, []⟩ := by
  obtain ⟨shard, g, hparse, hplace, hdet, hne⟩ := hstarts
  have hg := valid_of_detected hdet
  rw [(decode_eq hd.valid hparse shared).trans (if_neg hplace), retune, hdet] at hdec
  simp only [Geometry.validate_eq_ok_iff.2 hg] at hdec
  rw [if_neg (show ¬ g = (d.noted shard).geometry from hne)] at hdec
  obtain ⟨retunes, hcount, hdec⟩ := Checked.bind_eq_ok.1 hdec
  obtain rfl := Checked.eq_add hcount
  cases hdec
  exact ⟨shard, g, hg, rfl⟩

/-- The buffers in the sets are those in their slots. -/
theorem mem_buffers_iff {b : Buffer} : b ∈ d.sets.buffers ↔ ∃ group i, d.Stores group i b := by
  simp only [SetTable.buffers, ShardSet.buffers, List.mem_flatMap, List.mem_filterMap, id, exists_eq_right]
  constructor
  · rintro ⟨⟨group, set⟩, hmem, hb⟩
    obtain ⟨i, hi⟩ := List.mem_iff_getElem?.1 hb
    exact ⟨group, i, set, hmem, hi⟩
  · rintro ⟨group, i, set, hmem, hi⟩
    exact ⟨(group, set), hmem, List.mem_iff_getElem?.2 ⟨i, hi⟩⟩

/-- What a change of the geometry leaves of a receiver and of what it shares. -/
structure Restarted (d : Decoder) (shared : Shared) (t : Decoded) : Prop where
  recovered_eq : t.recovered = []
  floor_eq : t.decoder.floor = none
  tracked_eq : t.decoder.tracked = 0
  membership_eq : ∀ group, t.decoder.membership group = none
  /-- The buffers of the old sets have been handed to the pool, and the gauges written. -/
  shared_eq : t.shared = ((shared.release d.sets.buffers).gauge .shardSets 0).gauge .shardMin 0
  /-- These are all buffers that stood in a slot. -/
  handed_iff : ∀ b, b ∈ d.sets.buffers ↔ ∃ group i, d.Stores group i b
  /-- The account of the call: it has taken all of them in, and given none out. -/
  account : shared.pool.Exchanges ↑d.sets.buffers t.shared.pool 0
  /-- Of these buffers the pool keeps those that are large enough, up to what it may keep. -/
  available_eq : t.shared.pool.available = max shared.pool.available (min shared.pool.retention
    (shared.pool.available + d.sets.buffers.countP fun b => shared.pool.bufferSize ≤ b.capacity))
  /-- A new receiver of the new geometry takes all traffic that fits it, and so does the old one. At every call they
  show the same, whatever pools and counters they use. -/
  asNew : ∃ n, create t.decoder.geometry = .ok n ∧ ∀ packets, (∀ p ∈ packets, t.decoder.geometry.Fits p) →
    ∀ s s', ∃ seen, t.decoder.watch s packets = .ok seen ∧ n.watch s' packets = .ok seen

/-- **A change of the geometry is a new start.** Whatever a receiver has taken, behind a packet that changes its
geometry it has no floor and no sets, the buffers of the old ones have been handed back to the pool, which keeps those
that it has room for, and over all traffic that fits the new geometry it shows what a new receiver shows. -/
theorem resynchronises (h : d.Reached) (hdec : d.decode shared packet = .ok t)
    (hchange : t.decoder.retunes ≠ d.retunes) : d.Restarted shared t := by
  have hstarts : d.StartsOver packet := not_not.1 (mt (retunes_eq_iff h.sound hdec).2 hchange)
  obtain ⟨shard, g, hg, rfl⟩ := decode_starting_over h.sound hstarts hdec
  refine ⟨rfl, rfl, rfl, fun _ => rfl, rfl, fun _ => mem_buffers_iff, shared.pool.exchanges_releaseAll d.sets.buffers,
    shared.pool.available_releaseAll d.sets.buffers, ⟨g, [], none, .empty, 0⟩, create_eq_ok_iff.2 ⟨hg, rfl⟩,
    fun packets hfits s s' => ?_⟩
  -- what outlasts the change, the log and the count, is what receivers that are abreast may differ in
  have habreast : ((d.noted shard).retuned g).Abreast ⟨g, [], none, .empty, 0⟩ := abreast_of_idle rfl rfl rfl rfl
  exact habreast.watch ⟨hg, nofun⟩ ⟨hg, nofun⟩ hfits s s'

set_option maxRecDepth 20000 in
/-- A receiver with two sets, whose geometry then changes. -/
theorem resynchronises_of_two_sets : ∃ d₀ d shared' t, create ⟨2, 1⟩ = .ok d₀ ∧
    d₀.after ⟨.create 16 8, .zero⟩ [[0, 0, 0, 0, 241, 0, 7], [2, 0, 0, 0, 241, 0, 7], [3, 0, 0, 0, 242, 0, 7],
      [4, 0, 0, 0, 241, 0, 7]] = .ok (d, shared') ∧
    d.decode shared' [1, 0, 0, 0, 242, 0, 7] = .ok t ∧ d.Reached ∧ d.sets.buffers.length = 2 ∧
    t.decoder.retunes ≠ d.retunes ∧ t.decoder.geometry = ⟨1, 1⟩ ∧ d.Restarted shared' t := by
  obtain ⟨d₀, d, shared', t, hnew, hafter, hdec, hheld, hchange, hgeo⟩ : ∃ d₀ d shared' t, create ⟨2, 1⟩ = .ok d₀ ∧
      d₀.after ⟨.create 16 8, .zero⟩ [[0, 0, 0, 0, 241, 0, 7], [2, 0, 0, 0, 241, 0, 7], [3, 0, 0, 0, 242, 0, 7],
        [4, 0, 0, 0, 241, 0, 7]] = .ok (d, shared') ∧
      d.decode shared' [1, 0, 0, 0, 242, 0, 7] = .ok t ∧ d.sets.buffers.length = 2 ∧
      t.decoder.retunes ≠ d.retunes ∧ t.decoder.geometry = ⟨1, 1⟩ :=
    ⟨_, _, _, _, rfl, rfl, rfl, by decide +kernel⟩
  have hreached : d.Reached := Reached.after ⟨_, _, hnew, .refl⟩ hafter
  exact ⟨d₀, d, shared', t, hnew, hafter, hdec, hreached, hheld, hchange, hgeo,
    resynchronises hreached hdec hchange⟩

end Decoder

end PacketFec
