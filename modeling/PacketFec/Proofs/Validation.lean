import Mathlib
import PacketFec.Decoder
import PacketFec.Encoder
import PacketFec.Json.Record

/-!
# Checking a configuration

A geometry is checked on its own, in a configuration, and where a sender or a receiver is built; a header
offset is checked in a configuration and against the buffers of the pool that a sender takes its slots from.
All of these give the same *verdict*, the error of the first condition that fails, as long as their sums stay
in 64 bits.

The sums are those that the checks are there to bound, so they are taken before anything is known of them.
Where `D + P` or the framed offset leaves the range, the outcome is a fault in place of the refusal. There are
no other faults. The offset is summed up behind a valid geometry only.

* `Config.verdict`: the first condition that fails, in unbounded numbers.
* `Geometry.Overflows`, `Geometry.OverflowsAt`: the sums that leave the range.
* `Geometry.validate_eq`, `Config.validate_eq`, `Encoder.create_outcome`, `Decoder.create_outcome`,
  `Config.load_eq`: the outcome of each check.
* `Config.fits_of_inFile?`: a file only describes configurations of 64-bit numbers.
* `Config.validation`: **the checks agree**, and a configuration that passes builds both ends.
-/

namespace PacketFec

namespace Checked

/-- The outcome of a check in 64-bit arithmetic: a fault where one of its sums leaves the range, and its
verdict elsewhere. -/
def outcome (overflows : Prop) [Decidable overflows] (verdict : Except Error Unit) : Except Error Unit :=
  if overflows then .error .overflow else verdict

variable {p q : Prop} [Decidable p] [Decidable q] {v w : Except Error Unit}

theorem outcome_pos (h : p) : outcome p v = .error .overflow := if_pos h

theorem outcome_neg (h : ¬ p) : outcome p v = v := if_neg h

theorem outcome_eq_ok_iff : outcome p v = .ok () ↔ ¬ p ∧ v = .ok () := by
  by_cases hp : p
  · rw [outcome_pos hp]
    simp [hp]
  · rw [outcome_neg hp]
    simp [hp]

/-- A second check is reached where the first one accepts. -/
theorem outcome_bind {r : Prop} [Decidable r] (hr : r ↔ p ∨ v = .ok () ∧ q) :
    (outcome p v >>= fun _ => outcome q w) = outcome r (v >>= fun _ => w) := by
  by_cases hp : p
  · rw [outcome_pos hp, outcome_pos (hr.2 (Or.inl hp))]
    rfl
  · rw [outcome_neg hp]
    rcases v with e | u
    · -- the second check is not reached, so its sum is never taken
      have hno : ¬ r := fun h => (hr.1 h).elim hp nofun
      rw [outcome_neg hno]
      rfl
    · by_cases hq : q
      · rw [ok_bind, outcome_pos hq, outcome_pos (hr.2 (Or.inr ⟨rfl, hq⟩))]
      · have hno : ¬ r := fun h => (hr.1 h).elim hp fun h' => hq h'.2
        rw [ok_bind, ok_bind, outcome_neg hq, outcome_neg hno]

end Checked

open Checked (outcome)

/-! ### A geometry -/

namespace Geometry

/-- What a geometry deserves. -/
def verdict (g : Geometry) : Except Error Unit :=
  if g.Valid then .ok () else .error (.invalidShardCount g.data g.parity)

/-- The group size is asked for and leaves the range. -/
def Overflows (g : Geometry) : Prop := 1 ≤ g.data ∧ 1 ≤ g.parity ∧ wordLimit ≤ g.data + g.parity

instance (g : Geometry) : Decidable g.Overflows := by unfold Overflows; infer_instance

variable {g : Geometry}

theorem verdict_eq_ok_iff : g.verdict = .ok () ↔ g.Valid := by
  unfold verdict
  split <;> simp_all

theorem Valid.not_overflows (h : g.Valid) : ¬ g.Overflows := by
  rintro ⟨-, -, hover⟩
  exact absurd hover (Nat.not_le.2 (Nat.lt_of_le_of_lt h.total_le (by decide)))

/-- The check of a geometry. -/
theorem validate_eq (g : Geometry) : g.validate = outcome g.Overflows g.verdict := by
  by_cases hg : g.Valid
  · rw [Checked.outcome_neg hg.not_overflows, validate_eq_ok_iff.2 hg, verdict_eq_ok_iff.2 hg]
  rw [verdict, if_neg hg, validate]
  by_cases hzero : g.data = 0 ∨ g.parity = 0
  · have hno : ¬ g.Overflows := by
      rintro ⟨hdata, hparity, -⟩
      omega
    rw [if_pos hzero, Checked.outcome_neg hno]
  rw [if_neg hzero]
  by_cases hlt : g.data + g.parity < wordLimit
  · -- the counts are positive and their sum is in range, so it is the sum that is refused
    have hno : ¬ g.Overflows := by
      rintro ⟨-, -, hover⟩
      omega
    have hmax : g.data + g.parity > maxGroupSize := by
      by_contra hle
      exact hg ⟨by omega, by omega, by omega⟩
    rw [size, Checked.add_eq hlt, Checked.ok_bind, if_pos hmax, Checked.outcome_neg hno]
    rfl
  · rw [size, Checked.add, if_neg hlt, Checked.outcome_pos ⟨by omega, by omega, by omega⟩]
    rfl

/-! ### A geometry behind an outer layer -/

/-- What an offset of the shard header deserves, in packets of at most `limit` bytes. -/
def roomVerdict (limit offset : ℕ) : Except Error Unit :=
  if offset + framingSize ≤ limit then .ok () else .error (.headerOffsetTooLarge offset limit)

/-- What a geometry and an offset deserve, in packets of at most `limit` bytes. -/
def verdictAt (g : Geometry) (limit offset : ℕ) : Except Error Unit := do
  g.verdict
  roomVerdict limit offset

/-- The group size leaves the range, or the geometry is valid and the framed offset does. -/
def OverflowsAt (g : Geometry) (offset : ℕ) : Prop := g.Overflows ∨ g.Valid ∧ wordLimit ≤ offset + framingSize

instance (g : Geometry) (offset : ℕ) : Decidable (g.OverflowsAt offset) := by unfold OverflowsAt; infer_instance

/-- Check a geometry, and then an offset in packets of at most `limit` bytes. -/
def checkAt (g : Geometry) (limit offset : ℕ) : Except Error Unit := do
  g.validate
  let framed ← Checked.add offset framingSize
  if framed > limit then .error (.headerOffsetTooLarge offset limit) else .ok ()

variable {limit offset : ℕ}

theorem verdictAt_eq_ok_iff : g.verdictAt limit offset = .ok () ↔ g.Valid ∧ offset + framingSize ≤ limit := by
  have hroom : roomVerdict limit offset = .ok () ↔ offset + framingSize ≤ limit := by
    unfold roomVerdict
    split <;> simp_all
  rw [verdictAt, Checked.bind_eq_ok]
  exact ⟨fun ⟨_, h, h'⟩ => ⟨verdict_eq_ok_iff.1 h, hroom.1 h'⟩,
    fun ⟨h, h'⟩ => ⟨(), verdict_eq_ok_iff.2 h, hroom.2 h'⟩⟩

/-- The check of a framed offset. -/
theorem room_eq (limit offset : ℕ) :
    (do let framed ← Checked.add offset framingSize
        if framed > limit then .error (.headerOffsetTooLarge offset limit) else .ok ()) =
      outcome (wordLimit ≤ offset + framingSize) (roomVerdict limit offset) := by
  by_cases hlt : offset + framingSize < wordLimit
  · rw [Checked.add_eq hlt, Checked.ok_bind, Checked.outcome_neg (by omega), roomVerdict]
    by_cases hroom : offset + framingSize ≤ limit
    · rw [if_neg (by omega), if_pos hroom]
    · rw [if_pos (by omega), if_neg hroom]
  · rw [Checked.add, if_neg hlt, Checked.outcome_pos (by omega)]
    rfl

/-- The check of a geometry and of a framed offset behind it, which configurations and senders share. -/
theorem checkAt_eq (g : Geometry) (limit offset : ℕ) :
    g.checkAt limit offset = outcome (g.OverflowsAt offset) (g.verdictAt limit offset) := by
  rw [checkAt, room_eq, validate_eq]
  exact Checked.outcome_bind (by rw [OverflowsAt, verdict_eq_ok_iff])

end Geometry

/-! ### The two ends -/

/-- The two steps in which a sender sums up its framed offset. -/
theorem Checked.add_framing (offset : ℕ) :
    (do Checked.add (← Checked.add offset headerSize) sizePrefixLength) = Checked.add offset framingSize := by
  unfold Checked.add framingSize
  by_cases h : offset + headerSize < wordLimit
  · rw [if_pos h, Checked.ok_bind, Nat.add_assoc]
  · rw [if_neg h, if_neg (by omega)]
    rfl

/-- Building a sender. -/
theorem Encoder.create_outcome (g : Geometry) (offset : ℕ) (pool : BufferPool) :
    (Encoder.create g offset pool).map (fun _ => ()) =
      outcome (g.OverflowsAt offset) (g.verdictAt pool.bufferSize offset) := by
  rw [← Geometry.checkAt_eq, Geometry.checkAt, ← Checked.add_framing]
  unfold Encoder.create
  cases hval : g.validate with
  | error e => rfl
  | ok _ =>
    have hg := Geometry.validate_eq_ok_iff.1 hval
    cases Checked.add offset headerSize with
    | error e => rfl
    | ok a =>
      cases hadd : Checked.add a sizePrefixLength with
      | error e => simp only [Checked.ok_bind, hadd]; rfl
      | ok framed =>
        -- behind the checks nothing fails: the numbers of a valid geometry are in range
        simp only [Checked.ok_bind, hadd, Geometry.paws_eq hg, Geometry.size_eq hg]
        by_cases hroom : framed > pool.bufferSize
        · rw [if_pos hroom, if_pos hroom]
          rfl
        · rw [if_neg hroom, if_neg hroom]
          rfl

/-- Building a receiver. -/
theorem Decoder.create_outcome (g : Geometry) :
    (Decoder.create g).map (fun _ => ()) = outcome g.Overflows g.verdict := by
  rw [← Geometry.validate_eq, Decoder.create]
  cases g.validate with
  | error e => rfl
  | ok _ => rfl

/-! ### A configuration -/

namespace Config

/-- A valid geometry, room for a shard behind the outer layer, and a threshold above zero. -/
structure Valid (c : Config) : Prop where
  geometry : c.geometry.Valid
  room : c.headerOffset + framingSize ≤ mtuLimit
  staleness_pos : 1 ≤ c.staleness

/-- What a configuration deserves: the error of the first condition that fails. -/
def verdict (c : Config) : Except Error Unit :=
  if ¬ c.geometry.Valid then .error (.invalidShardCount c.geometry.data c.geometry.parity)
  else if ¬ c.headerOffset + framingSize ≤ mtuLimit then .error (.headerOffsetTooLarge c.headerOffset mtuLimit)
  else if ¬ 1 ≤ c.staleness then .error .zeroStaleness
  else .ok ()

/-- A sum that the checks of a configuration take leaves the range. -/
def Overflows (c : Config) : Prop := c.geometry.OverflowsAt c.headerOffset

instance (c : Config) : Decidable c.Overflows := by unfold Overflows; infer_instance

variable {c : Config}

theorem verdict_eq_ok_iff : c.verdict = .ok () ↔ c.Valid := by
  unfold verdict
  constructor
  · intro h
    split_ifs at h with h1 h2 h3
    exact ⟨h1, h2, h3⟩
  · rintro ⟨h1, h2, h3⟩
    rw [if_neg (not_not.2 h1), if_neg (not_not.2 h2), if_neg (not_not.2 h3)]

/-- The staleness threshold is looked at last. -/
theorem verdict_eq_bind (c : Config) :
    c.verdict = (do
      c.geometry.verdictAt mtuLimit c.headerOffset
      if c.staleness = 0 then .error .zeroStaleness else .ok ()) := by
  unfold verdict Geometry.verdictAt Geometry.verdict Geometry.roomVerdict
  split_ifs <;> first | rfl | omega

/-- A refusal is no fault. -/
theorem not_isFault_of_verdict {e : Error} (h : c.verdict = .error e) : ¬ e.IsFault := by
  unfold verdict at h
  split_ifs at h <;> cases h <;> exact id

/-- The check of a configuration. -/
theorem validate_eq (c : Config) : c.validate = outcome c.Overflows c.verdict := by
  have hsplit : c.validate = (do
      c.geometry.checkAt mtuLimit c.headerOffset
      if c.staleness = 0 then .error .zeroStaleness else .ok ()) := by
    unfold validate Geometry.checkAt
    cases c.geometry.validate with
    | error e => rfl
    | ok _ =>
      cases Checked.add c.headerOffset framingSize with
      | error e => rfl
      | ok framed =>
        simp only [Checked.ok_bind]
        by_cases hroom : framed > mtuLimit
        · rw [if_pos hroom, if_pos hroom]
          rfl
        · rw [if_neg hroom, if_neg hroom]
          rfl
  have hcheck : c.geometry.checkAt mtuLimit c.headerOffset =
      outcome c.Overflows (c.geometry.verdictAt mtuLimit c.headerOffset) := Geometry.checkAt_eq ..
  rw [hsplit, hcheck, verdict_eq_bind]
  by_cases hover : c.Overflows
  · rw [Checked.outcome_pos hover, Checked.outcome_pos hover]
    rfl
  · rw [Checked.outcome_neg hover, Checked.outcome_neg hover]

/-- The sums of a valid configuration stay in range. -/
theorem Valid.not_overflows (h : c.Valid) : ¬ c.Overflows := by
  rintro (hover | ⟨-, hover⟩)
  · exact h.geometry.not_overflows hover
  · exact absurd hover (Nat.not_le.2 (Nat.lt_of_le_of_lt h.room (by decide)))

/-- **The check accepts the valid configurations.** -/
theorem validate_eq_ok_iff : c.validate = .ok () ↔ c.Valid := by
  rw [validate_eq, Checked.outcome_eq_ok_iff, verdict_eq_ok_iff]
  exact ⟨And.right, fun h => ⟨h.not_overflows, h⟩⟩

/-! ### Building both ends from a configuration -/

/-- A sender of a configuration is refused with the error of the configuration, where the buffers of the pool
are of the largest packet. -/
theorem encoder_ofConfig_outcome (c : Config) {pool : BufferPool} (hpool : pool.bufferSize = mtuLimit) :
    (Encoder.ofConfig c pool).map (fun _ => ()) = c.validate := by
  unfold Encoder.ofConfig
  cases hval : c.validate with
  | error e => rfl
  | ok _ =>
    -- the construction checks geometry and offset again, against the same limit
    have hc := validate_eq_ok_iff.1 hval
    have hno : ¬ c.geometry.OverflowsAt c.headerOffset := hc.not_overflows
    rw [Checked.ok_bind, Encoder.create_outcome, Checked.outcome_neg hno, hpool,
      Geometry.verdictAt_eq_ok_iff.2 ⟨hc.geometry, hc.room⟩]

/-- A receiver of a configuration is refused with the error of the configuration. -/
theorem decoder_ofConfig_outcome (c : Config) : (Decoder.ofConfig c).map (fun _ => ()) = c.validate := by
  unfold Decoder.ofConfig
  cases hval : c.validate with
  | error e => rfl
  | ok _ =>
    have hg := (validate_eq_ok_iff.1 hval).geometry
    rw [Checked.ok_bind, Decoder.create_outcome, Checked.outcome_neg hg.not_overflows,
      Geometry.verdict_eq_ok_iff.2 hg]

end Config

/-! ### Configuration files -/

/-- The entries of a result are those of the list, one by one. -/
theorem mapM_eq_some_iff {α β : Type} {f : α → Option β} {xs : List α} {ys : List β} :
    xs.mapM f = some ys ↔ List.Forall₂ (fun x y => f x = some y) xs ys := by
  induction xs generalizing ys with
  | nil =>
    rw [List.mapM_nil, List.forall₂_nil_left_iff]
    exact ⟨fun h => (Option.some.inj h).symm, fun h => congrArg some h.symm⟩
  | cons x xs ih =>
    simp only [List.mapM_cons, Option.bind_eq_bind, Option.bind_eq_some_iff, List.forall₂_cons_left_iff, ih]
    constructor
    · rintro ⟨y, hy, ys', hys, h⟩
      exact ⟨y, ys', hy, hys, (Option.some.inj h).symm⟩
    · rintro ⟨y, ys', hy, hys, rfl⟩
      exact ⟨y, hy, ys', hys, rfl⟩

/-- An entry of a result comes from an entry of the list. -/
theorem exists_mem_of_mapM {α β : Type} {f : α → Option β} {xs : List α} {ys : List β} {y : β}
    (h : xs.mapM f = some ys) (hy : y ∈ ys) : ∃ x ∈ xs, f x = some y := by
  have hall := mapM_eq_some_iff.1 h
  induction hall with
  | nil => cases hy
  | @cons x z xs zs hz hzs ih =>
    rcases List.mem_cons.1 hy with rfl | hy
    · exact ⟨x, List.mem_cons_self, hz⟩
    · obtain ⟨x', hx', hf⟩ := ih (mapM_eq_some_iff.2 hzs) hy
      exact ⟨x', List.mem_cons_of_mem x hx', hf⟩

namespace Json

variable {n : ℕ}

/-- A count is a number of 64 bits. -/
theorem count?_eq_some_iff {v : Json} : v.count? = some n ↔ v = .natural n ∧ n < wordLimit := by
  unfold count?
  split
  · rename_i m
    split_ifs with hlt
    · rw [Option.some.injEq, natural.injEq]
      exact ⟨fun h => ⟨h, h ▸ hlt⟩, fun h => h.1⟩
    · refine ⟨nofun, ?_⟩
      rintro ⟨hm, hn⟩
      exact absurd (natural.inj hm ▸ hn) hlt
  · rename_i hno
    refine ⟨nofun, ?_⟩
    rintro ⟨rfl, -⟩
    exact (hno n rfl).elim

/-- A field gives the number of the one member that has its name, or nothing if there is none. -/
theorem field?_eq_some_iff {members : List (List Char × Json)} {name : String} {given : Option ℕ} :
    field? members name = some given ↔
      (members.filter fun m => m.1 = name.toList).map Prod.snd = (given.map natural).toList ∧
        ∀ n ∈ given, n < wordLimit := by
  unfold field?
  split
  · rename_i hnone
    rw [hnone]
    cases given <;> simp
  · rename_i m hone
    rw [hone]
    cases given <;> simp [count?_eq_some_iff]
  · rename_i hnone hone
    refine ⟨nofun, ?_⟩
    rintro ⟨heq, -⟩
    cases given with
    | none => exact (hnone (List.map_eq_nil_iff.1 heq)).elim
    | some n =>
      obtain ⟨m, hm, -⟩ := List.map_eq_singleton_iff.1 heq
      exact (hone m hm).elim

/-- **The numbers in a record are 64-bit words.** -/
theorem record?_lt {v : Json} {names : List String} {counts : List (Option ℕ)}
    (h : v.record? names = some counts) (hn : some n ∈ counts) : n < wordLimit := by
  unfold record? at h
  split at h
  · obtain ⟨members, -, h⟩ := Option.bind_eq_some_iff.1 h
    obtain ⟨name, -, hfield⟩ := exists_mem_of_mapM h hn
    exact (field?_eq_some_iff.1 hfield).2 n rfl
  · split_ifs at h
    obtain ⟨given, hgiven, h⟩ := Option.bind_eq_some_iff.1 h
    cases h
    -- fields behind the end of the array are not given
    rcases List.mem_append.1 hn with hn | hn
    · obtain ⟨m, hm, hmn⟩ := List.mem_map.1 hn
      cases hmn
      obtain ⟨item, -, hcount⟩ := exists_mem_of_mapM hgiven hm
      exact (count?_eq_some_iff.1 hcount).2
    · cases List.eq_of_mem_replicate hn
  · cases h

end Json

namespace Config

variable {c : Config}

/-- The configuration that the content of a file describes. -/
def inFile? (content : Option ByteArray) : Option Config := (content.bind String.fromUTF8?).bind ofText?

/-- The numbers of a configuration are 64-bit words. -/
structure Fits (c : Config) : Prop where
  data_lt : c.geometry.data < wordLimit
  parity_lt : c.geometry.parity < wordLimit
  offset_lt : c.headerOffset < wordLimit
  staleness_lt : c.staleness < wordLimit

/-- **A file only describes configurations of 64-bit numbers.** -/
theorem fits_of_inFile? {content : Option ByteArray} (h : inFile? content = some c) : c.Fits := by
  obtain ⟨text, -, htext⟩ := Option.bind_eq_some_iff.1 h
  obtain ⟨v, -, hv⟩ := Option.bind_eq_some_iff.1 htext
  obtain ⟨counts, hcounts, hv⟩ := Option.bind_eq_some_iff.1 hv
  split at hv
  · rename_i data parity offset staleness
    cases hv
    -- a field is a number of the file or the standard one
    have hlt (field : Option ℕ) (standard : ℕ) (hfield : field ∈ [data, parity, offset, staleness])
        (hstandard : standard < wordLimit) : field.getD standard < wordLimit := by
      cases field with
      | none => exact hstandard
      | some n => exact Json.record?_lt hcounts hfield
    exact
      { data_lt := hlt data _ (by simp) (by decide)
        parity_lt := hlt parity _ (by simp) (by decide)
        offset_lt := hlt offset _ (by simp) (by decide)
        staleness_lt := hlt staleness _ (by simp) (by decide) }
  · cases hv

/-- Reading a file. -/
theorem load_eq {content : Option ByteArray} (h : inFile? content = some c) (path : String) :
    load path content =
      if c.Overflows then .error (.fault .overflow)
      else match c.verdict with
        | .ok () => .ok c
        | .error e => .error (.invalidConfiguration path e) := by
  obtain ⟨text, htext, hc⟩ := Option.bind_eq_some_iff.1 h
  unfold load
  simp only [htext, hc, validate_eq]
  by_cases hover : c.Overflows
  · rw [Checked.outcome_pos hover, if_pos hover]
    rfl
  · rw [Checked.outcome_neg hover, if_neg hover]
    cases hv : c.verdict with
    | ok _ => rfl
    | error e =>
      -- a refusal is put into the failure of the step, a fault would not be
      have hrefusal := not_isFault_of_verdict hv
      simp only [Failure.of, if_neg hrefusal]

/-! ### The checks of a configuration agree -/

/-- What the checks of a configuration give, and how they agree. -/
structure Consistent (c : Config) : Prop where
  /-- The verdict is to accept where all conditions hold. -/
  accepts : c.verdict = .ok () ↔ c.Valid
  /-- The verdict is the outcome, unless a sum leaves the range: then the outcome is a fault. -/
  outcome_eq : c.validate = outcome c.Overflows c.verdict
  /-- Nothing else is a fault. -/
  fault_iff : (∃ e, c.validate = .error e ∧ e.IsFault) ↔ c.Overflows
  /-- The geometry on its own. -/
  geometry_eq : c.geometry.validate = outcome c.geometry.Overflows c.geometry.verdict
  /-- A sender with any pool. -/
  sender_eq : ∀ pool, (Encoder.create c.geometry c.headerOffset pool).map (fun _ => ()) =
    outcome c.Overflows (c.geometry.verdictAt pool.bufferSize c.headerOffset)
  /-- A receiver. -/
  receiver_eq : (Decoder.create c.geometry).map (fun _ => ()) =
    outcome c.geometry.Overflows c.geometry.verdict
  /-- A file can only describe the configuration where its numbers are 64-bit words. -/
  file_fits : ∀ content, inFile? content = some c → c.Fits
  /-- A file with the configuration. -/
  file_eq : ∀ path content, inFile? content = some c → load path content =
    if c.Overflows then .error (.fault .overflow)
    else match c.verdict with
      | .ok () => .ok c
      | .error e => .error (.invalidConfiguration path e)
  /-- A sender and a receiver of the configuration are built where it is accepted, and are refused with its
  own error elsewhere. -/
  ends_eq : (Encoder.ofConfig c BufferPool.standard).map (fun _ => ()) = c.validate ∧
    (Decoder.ofConfig c).map (fun _ => ()) = c.validate

/-- **The checks of a configuration agree**: whatever its numbers, each gives the first condition that fails
in unbounded numbers, or a fault exactly where a sum that it takes leaves 64 bits. -/
theorem validation (c : Config) : c.Consistent where
  accepts := verdict_eq_ok_iff
  outcome_eq := validate_eq c
  fault_iff := by
    rw [validate_eq]
    by_cases hover : c.Overflows
    · rw [Checked.outcome_pos hover]
      exact ⟨fun _ => hover, fun _ => ⟨_, rfl, trivial⟩⟩
    · rw [Checked.outcome_neg hover]
      exact ⟨fun ⟨_, he, hfault⟩ => absurd hfault (not_isFault_of_verdict he), fun h => absurd h hover⟩
  geometry_eq := Geometry.validate_eq c.geometry
  sender_eq := Encoder.create_outcome c.geometry c.headerOffset
  receiver_eq := Decoder.create_outcome c.geometry
  file_fits := fun _ => fits_of_inFile?
  file_eq := fun path _ h => load_eq h path
  ends_eq := ⟨encoder_ofConfig_outcome c rfl, decoder_ofConfig_outcome c⟩

/-- A file that describes a group of 2 ^ 64 shards. -/
theorem inFile?_wide : inFile? (some "[18446744073709551615,1]".toUTF8) = some ⟨⟨wordLimit - 1, 1⟩, 0, 500⟩ := by
  decide +kernel

/-- A group of 2 ^ 64 shards, and an offset next to 2 ^ 64. The verdict is to refuse both, and each check that
sums them up faults in place of that, a file with the first one included. -/
theorem validation_overflows :
    let wide : Config := ⟨⟨wordLimit - 1, 1⟩, 0, 500⟩
    let late : Config := ⟨⟨10, 3⟩, wordLimit - 1, 500⟩
    wide.Fits ∧ late.Fits ∧
      wide.verdict = .error (.invalidShardCount (wordLimit - 1) 1) ∧
      wide.geometry.validate = .error .overflow ∧ wide.validate = .error .overflow ∧
      (Encoder.create wide.geometry 0 BufferPool.standard).map (fun _ => ()) = .error .overflow ∧
      (Decoder.create wide.geometry).map (fun _ => ()) = .error .overflow ∧
      load "session" (some "[18446744073709551615,1]".toUTF8) = .error (.fault .overflow) ∧
      late.verdict = .error (.headerOffsetTooLarge (wordLimit - 1) mtuLimit) ∧
      late.validate = .error .overflow := by
  refine ⟨⟨by decide, by decide, by decide, by decide⟩, ⟨by decide, by decide, by decide, by decide⟩,
    rfl, rfl, rfl, rfl, rfl, ?_, rfl, rfl⟩
  rw [load_eq inFile?_wide]
  rfl

end Config

end PacketFec
