import Mathlib
import PacketFec.Proofs.SessionRuns
import PacketFec.Proofs.Wraparound

/-!
# Endpoints do not influence each other

The endpoints of a session share a pool and counters. What an endpoint does depends on the content of its buffers,
never on what they held before it took them, on how much memory they have, or on the counters. So its answers in a
session are those that it gives alone.

* `Agree`: the same refusal, or results in a relation.
* `Encoder.Alike`, `Encoder.Alike.encode`: senders whose slots have the same content.
* `Decoder.Alike`, `Decoder.Alike.decode`: receivers whose sets hold the same bodies.
* `Session.isolation`: **every endpoint answers as it does alone**, in every session.
-/

namespace PacketFec

/-! ### Results in a relation -/

/-- The same refusal, or results in a relation. -/
inductive Agree {α β : Type} (R : α → β → Prop) : Except Error α → Except Error β → Prop
  | error (e : Error) : Agree R (.error e) (.error e)
  | ok {a : α} {b : β} (h : R a b) : Agree R (.ok a) (.ok b)

section

variable {α β γ δ : Type} {R : α → β → Prop} {S : γ → δ → Prop}

theorem Agree.bind {x : Except Error α} {y : Except Error β} {f : α → Except Error γ} {g : β → Except Error δ}
    (h : Agree R x y) (hfg : ∀ a b, R a b → Agree S (f a) (g b)) : Agree S (x >>= f) (y >>= g) := by
  cases h with
  | error e => exact .error e
  | ok h => exact hfg _ _ h

theorem Agree.bind_same (x : Except Error α) {f : α → Except Error γ} {g : α → Except Error δ}
    (hfg : ∀ a, Agree S (f a) (g a)) : Agree S (x >>= f) (x >>= g) := by
  cases x with
  | error e => exact .error e
  | ok a => exact hfg a

end

/-! ### Senders -/

/-- Slots with the same content. -/
structure ScratchSlot.Alike (s t : ScratchSlot) : Prop where
  used_eq : t.used = s.used
  bytes_eq : t.buffer.bytes = s.buffer.bytes

namespace Encoder

variable {e e' : Encoder} {slots slots' : List ScratchSlot}

/-- Slots, one by one with the same content. -/
abbrev SlotsAlike (slots slots' : List ScratchSlot) : Prop := List.Forall₂ ScratchSlot.Alike slots slots'

/-- Senders that differ in the memory of their slots only. -/
def Alike (e e' : Encoder) : Prop := ∃ scratch, e' = { e with scratch } ∧ SlotsAlike e.scratch scratch

theorem write_alike {s t : ScratchSlot} (h : s.Alike t) (start : ℕ) (part : Bytes) :
    (s.write start part).Alike (t.write start part) :=
  ⟨h.used_eq, congrArg (Bytes.overwrite · start part) h.bytes_eq⟩

theorem map_pad_alike (h : SlotsAlike slots slots') (stop : ℕ) :
    SlotsAlike (slots.map (·.pad stop)) (slots'.map (·.pad stop)) := by
  apply List.forall₂_map_left_iff.2
  apply List.forall₂_map_right_iff.2
  apply h.imp
  intro s t hst
  rw [ScratchSlot.pad, ScratchSlot.pad, hst.used_eq]
  exact write_alike hst _ _

/-- Whatever is read from the content of slots is the same. -/
theorem map_eq_of_alike {α : Type} (h : SlotsAlike slots slots') (f : Bytes → ℕ → α) :
    slots'.map (fun s => f s.buffer.bytes s.used) = slots.map fun s => f s.buffer.bytes s.used := by
  induction h with
  | nil => rfl
  | cons hst _ ih => rw [List.map_cons, List.map_cons, ih, hst.bytes_eq, hst.used_eq]

theorem getElem?_alike (h : SlotsAlike slots slots') (i : ℕ) :
    slots[i]? = none ∧ slots'[i]? = none ∨ ∃ s t, slots[i]? = some s ∧ slots'[i]? = some t ∧ s.Alike t := by
  induction h generalizing i with
  | nil => exact .inl ⟨rfl, rfl⟩
  | cons hst _ ih =>
    cases i with
    | zero => exact .inr ⟨_, _, rfl, rfl, hst⟩
    | succ i => exact ih i

theorem set_alike (h : SlotsAlike slots slots') (i : ℕ) {s t : ScratchSlot} (hst : s.Alike t) :
    SlotsAlike (slots.set i s) (slots'.set i t) := by
  induction h generalizing i with
  | nil => exact .nil
  | cons hfirst hrest ih =>
    cases i with
    | zero => exact .cons hst hrest
    | succ i => exact .cons hfirst (ih i)

theorem advance_alike (e : Encoder) (scratch : List ScratchSlot) (n : ℕ) :
    Agree (fun a b => b = { a with scratch } ∧ a.scratch = e.scratch) (e.advance n)
      (advance { e with scratch } n) :=
  Agree.bind_same _ fun _ => .ok ⟨rfl, rfl⟩

theorem Alike.store (h : e.Alike e') (size : ℕ) (body : Bytes) :
    Agree Alike (e.store size body) (e'.store size body) := by
  obtain ⟨scratch, rfl, hslots⟩ := h
  unfold Encoder.store
  rcases getElem?_alike hslots e.count with ⟨h1, h2⟩ | ⟨s, t, h1, h2, hst⟩
  · simp only [h1, h2]
    exact .error _
  · simp only [h1, h2, hst.bytes_eq]
    split
    · exact .error _
    · refine .ok ⟨_, rfl, set_alike hslots _ ?_⟩
      exact ⟨rfl, (write_alike hst _ _).bytes_eq⟩

theorem sealParity_alike (e : Encoder) (scratch : List ScratchSlot) (h : SlotsAlike slots slots')
    (bodies : List Bytes) :
    Agree (fun a b => b.1 = { a.1 with scratch } ∧ a.1.scratch = e.scratch ∧ SlotsAlike a.2 b.2)
      (e.sealParity slots bodies) (sealParity { e with scratch } slots' bodies) := by
  induction h generalizing e bodies with
  | nil => exact .ok ⟨rfl, rfl, .nil⟩
  | @cons s t rest rest' hst hrest ih =>
    cases bodies with
    | nil => exact .ok ⟨rfl, rfl, .cons hst hrest⟩
    | cons body bodies =>
      refine (advance_alike e scratch 1).bind fun a b hab => ?_
      obtain ⟨rfl, hscratch⟩ := hab
      refine (ih a bodies).bind fun c d hcd => ?_
      obtain ⟨hd, hc, htail⟩ := hcd
      exact .ok ⟨hd, hc.trans hscratch, .cons (write_alike (write_alike hst _ _) _ _) htail⟩

theorem slotsReach_alike (h : e.Alike e') : e'.SlotsReach ↔ e.SlotsReach := by
  obtain ⟨scratch, rfl, hslots⟩ := h
  have hlen := map_eq_of_alike hslots fun bytes _ => bytes.length
  have hused := map_eq_of_alike (List.forall₂_take e.geometry.data hslots) fun _ used => used
  have hall : (∀ s ∈ scratch, e.longest ≤ s.buffer.bytes.length) ↔
      ∀ s ∈ e.scratch, e.longest ≤ s.buffer.bytes.length := by
    rw [← List.forall_mem_map (f := fun s : ScratchSlot => s.buffer.bytes.length) (P := (e.longest ≤ ·)), hlen,
      List.forall_mem_map]
  have hdata : (∀ s ∈ scratch.take e.geometry.data, s.used ≤ e.longest) ↔
      ∀ s ∈ e.scratch.take e.geometry.data, s.used ≤ e.longest := by
    rw [← List.forall_mem_map (f := fun s : ScratchSlot => s.used) (P := (· ≤ e.longest)), hused, List.forall_mem_map]
  exact and_congr_right fun _ => and_congr hall hdata

theorem Alike.protect (h : e.Alike e') : Agree (Option.Rel Alike) e.protect e'.protect := by
  have hreach := slotsReach_alike h
  obtain ⟨scratch, rfl, hslots⟩ := h
  unfold Encoder.protect
  by_cases hr : e.SlotsReach
  · rw [if_neg (not_not.2 hr), if_neg (not_not.2 (hreach.2 hr))]
    have hdata := map_pad_alike (List.forall₂_take e.geometry.data hslots) e.longest
    have hspare := List.forall₂_drop e.geometry.data hslots
    -- the code reads the same bodies, so it gives the same parity or refuses both
    have hbodies := map_eq_of_alike (List.rel_append hdata hspare) fun bytes _ => bytes.slice e.bodyStart e.longest
    simp only at hbodies ⊢
    rw [show bodyStart { e with scratch } = e.bodyStart from rfl, hbodies]
    split
    · exact .ok .none
    · rename_i parity hparity
      refine (sealParity_alike e scratch hspare parity).bind fun a b hab => ?_
      obtain ⟨hb, ha, hsealed⟩ := hab
      exact .ok (.some ⟨_, by rw [hb], List.rel_append hdata hsealed⟩)
  · rw [if_pos hr, if_pos fun hr' => hr (hreach.1 hr')]
    exact .error _

theorem Alike.advance (h : e.Alike e') (n : ℕ) : Agree Alike (e.advance n) (e'.advance n) := by
  obtain ⟨scratch, rfl, hslots⟩ := h
  exact Agree.bind_same _ fun _ => .ok ⟨scratch, rfl, hslots⟩

theorem Alike.beginGroup (h : e.Alike e') : e.beginGroup.Alike e'.beginGroup := by
  obtain ⟨scratch, rfl, hslots⟩ := h
  exact ⟨scratch, rfl, hslots⟩

theorem Alike.finishGroup (h : e.Alike e') (counters counters' : Counters) (continuous : Bool) :
    Agree (fun a b => a.1.Alike b.1 ∧ b.2.2 = a.2.2) (e.finishGroup counters continuous)
      (e'.finishGroup counters' continuous) := by
  have hgeometry : e'.geometry = e.geometry := by
    obtain ⟨scratch, rfl, -⟩ := h
    rfl
  unfold Encoder.finishGroup
  rw [hgeometry]
  split
  · refine h.protect.bind fun a b hab => ?_
    -- a refusal is counted, in counters that the packets do not depend on
    cases hab with
    | none => exact (h.advance _).bind fun a b hab => .ok ⟨hab.beginGroup, rfl⟩
    | some hab =>
      refine .ok ⟨hab.beginGroup, ?_⟩
      obtain ⟨scratch, rfl, hslots⟩ := hab
      exact map_eq_of_alike (List.forall₂_drop _ hslots) fun bytes _ => bytes.take _
  · exact (h.advance _).bind fun a b hab => .ok ⟨hab.beginGroup, rfl⟩

/-- **Senders whose slots have the same content seal a packet in the same way.** -/
theorem Alike.encode (h : e.Alike e') (counters counters' : Counters) (packet : Bytes) (staleness now : ℕ) :
    Agree (fun s t => s.encoder.Alike t.encoder ∧ t.packet = s.packet ∧ t.parity = s.parity)
      (e.encode counters packet staleness now) (e'.encode counters' packet staleness now) := by
  have hsame := h
  obtain ⟨scratch, rfl, -⟩ := hsame
  unfold Encoder.encode
  refine Agree.bind_same _ fun _ => ?_
  refine (h.advance 1).bind fun a b hab => ?_
  refine (hab.store _ _).bind fun c d hcd => ?_
  have hcount : d.count = c.count ∧ d.geometry = c.geometry := by
    obtain ⟨scratch', rfl, -⟩ := hcd
    exact ⟨rfl, rfl⟩
  simp only [hcount.1, hcount.2]
  split
  · refine (hcd.finishGroup counters counters' _).bind fun x y hxy => ?_
    obtain ⟨⟨scratch', hy, hslots⟩, hparity⟩ := hxy
    exact .ok ⟨⟨scratch', by rw [hy], hslots⟩, rfl, hparity⟩
  · obtain ⟨scratch', rfl, hslots⟩ := hcd
    exact .ok ⟨⟨scratch', rfl, hslots⟩, rfl, rfl⟩

/-- New senders are alike, whatever the buffers of their pools held. -/
theorem create_alike (g : Geometry) (offset : ℕ) {pool pool' : BufferPool} (h : pool'.bufferSize = pool.bufferSize) :
    Agree (fun a b => a.1.Alike b.1) (create g offset pool) (create g offset pool') := by
  unfold create
  rw [h]
  refine Agree.bind_same _ fun _ => Agree.bind_same _ fun _ => Agree.bind_same _ fun _ => ?_
  split
  · exact .error _
  · refine Agree.bind_same _ fun ceiling => Agree.bind_same _ fun size => .ok ⟨_, rfl, ?_⟩
    have hbytes : (pool.acquireMany size).1.map (·.bytes) = (pool'.acquireMany size).1.map (·.bytes) := by
      rw [BufferPool.map_bytes_acquireMany, BufferPool.map_bytes_acquireMany, h]
    rw [← List.forall₂_eq_eq_eq, List.forall₂_map_left_iff, List.forall₂_map_right_iff] at hbytes
    apply List.forall₂_map_left_iff.2
    apply List.forall₂_map_right_iff.2
    exact hbytes.imp fun b c hbc => ⟨rfl, hbc.symm⟩

theorem Alike.startAt (h : e.Alike e') (seqid : UInt32) : Agree Alike (e.startAt seqid) (e'.startAt seqid) := by
  obtain ⟨scratch, rfl, hslots⟩ := h
  exact Agree.bind_same _ fun _ => Agree.bind_same _ fun _ => Agree.bind_same _ fun _ => .ok ⟨scratch, rfl, hslots⟩

theorem build_alike (plan : Plan) (start : Option UInt32) {pool pool' : BufferPool}
    (h : pool'.bufferSize = pool.bufferSize) :
    Agree (fun a b => a.1.Alike b.1) (build plan start pool) (build plan start pool') := by
  have hmake : Agree (fun a b => a.1.Alike b.1) (make plan pool) (make plan pool') := by
    cases plan with
    | parts g offset => exact create_alike g offset h
    | config c => exact Agree.bind_same _ fun _ => create_alike c.geometry c.headerOffset h
  refine hmake.bind fun a b hab => ?_
  cases start with
  | none => exact .ok hab
  | some seqid => exact (hab.startAt seqid).bind fun c d hcd => .ok hcd

end Encoder

/-! ### Receivers -/

namespace SetTable

variable {t t' : SetTable} {s s' : ShardSet}

/-- The same groups with sets that hold the same bodies. -/
abbrev Alike (t t' : SetTable) : Prop := Renamed id (fun _ => True) t t'

theorem Alike.get? (h : t.Alike t') (k : ℕ) :
    t.get? k = none ∧ t'.get? k = none ∨ ∃ s s', t.get? k = some s ∧ t'.get? k = some s' ∧ s.Alike s' :=
  Renamed.get? h (fun _ _ _ _ heq => heq) trivial

theorem Alike.put (h : t.Alike t') (k : ℕ) (hs : s.Alike s') : (t.put k s).Alike (t'.put k s') :=
  Renamed.put h (fun _ _ _ _ heq => heq) trivial hs

theorem Alike.filter (h : t.Alike t') (p : ℕ → Bool) :
    SetTable.Alike (t.filter fun entry => p entry.1) (t'.filter fun entry => p entry.1) :=
  Renamed.filter h fun _ => rfl

end SetTable

namespace Decoder

variable {d e : Decoder} {shared shared' : Shared} {shard : Shard}

/-- Receivers that differ in the memory behind their sets only. -/
structure Alike (d e : Decoder) : Prop where
  geometry_eq : e.geometry = d.geometry
  floor_eq : e.floor = d.floor
  log_eq : e.log = d.log
  retunes_eq : e.retunes = d.retunes
  sets : SetTable.Alike d.sets e.sets

theorem alike_of_idle (h : d.sets = []) : d.Alike d := ⟨rfl, rfl, rfl, rfl, by rw [h]; exact .nil⟩

theorem Alike.noted (h : d.Alike e) (shard : Shard) : (d.noted shard).Alike (e.noted shard) where
  geometry_eq := h.geometry_eq
  floor_eq := h.floor_eq
  log_eq := by rw [Decoder.noted, Decoder.noted, h.log_eq]
  retunes_eq := h.retunes_eq
  sets := h.sets

theorem Alike.setOf (h : d.Alike e) (shard : Shard) : (d.setOf shard).Alike (e.setOf shard) := by
  unfold Decoder.setOf groupId
  rw [h.geometry_eq]
  rcases h.sets.get? (shard.seqid.toNat / d.geometry.total) with ⟨h1, h2⟩ | ⟨s, s', h1, h2, hs⟩
  · rw [h1, h2]
    exact ShardSet.alike_refl _
  · rw [h1, h2]
    exact hs

theorem Alike.settled (h : d.Alike e) (group : ℕ) {s s' : ShardSet} (hs : s.Alike s') :
    (d.settled group s).Alike (e.settled group s') := by
  have hnewest : e.newest group = d.newest group := by
    unfold newest
    rw [h.floor_eq, h.geometry_eq]
  refine ⟨h.geometry_eq, congrArg some hnewest, h.log_eq, h.retunes_eq, ?_⟩
  unfold Decoder.settled
  rw [h.geometry_eq, hnewest]
  exact (h.sets.put group hs).filter fun id => !lags (d.newest group) d.geometry.ring id

/-- What receivers that hold the same bodies give, and what they are afterwards. -/
abbrev SameOutcome (t u : Decoded) : Prop :=
  t.decoder.Alike u.decoder ∧ u.recovered.map (·.bytes) = t.recovered.map (·.bytes)

theorem Alike.receive (h : d.Alike e) (hd : d.Sound) (he : e.Sound) (hb : headerSize ≤ shard.bytes.length) :
    Agree SameOutcome (d.receive shared shard) (e.receive shared' shard) := by
  have hgroup : e.groupId shard = d.groupId shard := by rw [groupId, groupId, h.geometry_eq]
  have hposition : e.position shard = d.position shard := by rw [position, position, h.geometry_eq]
  have hset := h.setOf shard
  have hbehind : e.behind (e.groupId shard) e.geometry.ring = d.behind (d.groupId shard) d.geometry.ring := by
    rw [behind, behind, hgroup, h.floor_eq, h.geometry_eq]
  have habsorbs : (e.setOf shard).absorbs (e.position shard) = (d.setOf shard).absorbs (d.position shard) := by
    rw [hposition, hset.absorbs_eq]
  rcases receive_cases hd shared hb with ⟨hrec, hold⟩ | ⟨hnew, b, t, hrec, hs⟩
  · rcases receive_cases he shared' hb with ⟨hrec', -⟩ | ⟨hnew', b', u, hrec', hs'⟩
    · rw [hrec, hrec']
      exact .ok ⟨h, rfl⟩
    · -- a shard that one of them drops is not settled by the other one
      rcases hold with hold | hold
      · rw [hbehind, hold] at hnew'
        cases hnew'
      · have habs := absorbs_of_settles hs'
        rw [habsorbs, hold] at habs
        cases habs
  · rcases receive_cases he shared' hb with ⟨hrec', hold'⟩ | ⟨-, b', u, hrec', hs'⟩
    · rcases hold' with hold' | hold'
      · rw [hbehind, hnew] at hold'
        cases hold'
      · have habs := absorbs_of_settles hs
        rw [← habsorbs, hold'] at habs
        cases habs
    · obtain ⟨hfilled, hbodies⟩ := Settles.alike rfl h.geometry_eq hs hs' hset hposition rfl
      rw [hrec, hrec']
      refine .ok ⟨?_, hbodies⟩
      rw [hs.decoder_eq, hs'.decoder_eq, hgroup]
      exact h.settled _ hfilled

theorem Alike.retune (h : d.Alike e) : Agree SameOutcome (d.retune shared) (e.retune shared') := by
  have hdetected : e.detected? = d.detected? := by rw [detected?, detected?, h.log_eq]
  unfold Decoder.retune
  rw [hdetected, h.geometry_eq]
  split
  · exact .ok ⟨h, rfl⟩
  split
  · exact .ok ⟨h, rfl⟩
  split
  · unfold adopt
    rw [h.retunes_eq]
    exact Agree.bind_same _ fun retunes => .ok ⟨⟨rfl, rfl, h.log_eq, rfl, .nil⟩, rfl⟩
  · exact .ok ⟨h, rfl⟩

/-- **Receivers whose sets hold the same bodies take a packet in the same way.** -/
theorem Alike.decode (h : d.Alike e) (hd : d.Sound) (he : e.Sound) (shared shared' : Shared) (packet : Bytes) :
    Agree SameOutcome (d.decode shared packet) (e.decode shared' packet) := by
  cases hparse : Shard.parse packet with
  | error err =>
    rw [decode_of_parse_error hparse, decode_of_parse_error hparse]
    exact .ok ⟨h, rfl⟩
  | ok shard =>
    obtain ⟨-, hbytes, hlong⟩ := parse_eq_ok hparse
    have hposition : e.position shard = d.position shard := by rw [position, position, h.geometry_eq]
    rw [decode_eq hd.valid hparse, decode_eq he.valid hparse, hposition, h.geometry_eq]
    split
    · exact (h.noted shard).receive (hd.noted shard) (he.noted shard) (by rwa [hbytes])
    · exact (h.noted shard).retune

end Decoder

/-! ### Sessions -/

/-- An endpoint of a session. -/
inductive Endpoint where
  | sender (name : String)
  | receiver (name : String)

/-- Whether a request is one to an endpoint. -/
def Endpoint.concerns : Endpoint → Request → Bool
  | .sender name, .openSender other _ _ => other = name
  | .sender name, .encode other _ => other = name
  | .receiver name, .openReceiver other _ => other = name
  | .receiver name, .decode other _ => other = name
  | .sender name, .close other => other = name
  | .receiver name, .close other => other = name
  | _, _ => false

/-- What the user of a session sees of an endpoint between the requests. -/
inductive View where
  | sender (geometry : Geometry) (next : UInt32) (offset : ℕ)
  | receiver (geometry : Geometry) (floor : Option ℕ) (tracked retunes : ℕ) (membership : ℕ → Option ℕ)

/-- What the user sees of a sender. -/
def Encoder.view (e : Encoder) : View := .sender e.geometry e.next e.offset

/-- What the user sees of a receiver. -/
def Decoder.view (d : Decoder) : View := .receiver d.geometry d.floor d.tracked d.retunes d.membership

theorem Encoder.Alike.view_eq {e e' : Encoder} (h : e.Alike e') : e'.view = e.view := by
  obtain ⟨scratch, rfl, -⟩ := h
  rfl

theorem Decoder.Alike.view_eq {d e : Decoder} (h : d.Alike e) : e.view = d.view := by
  have hmembership : e.membership = d.membership := by
    funext group
    unfold Decoder.membership
    rcases h.sets.get? group with ⟨h1, h2⟩ | ⟨t, t', h1, h2, ht⟩
    · rw [h1, h2]
    · rw [h1, h2, Option.map_some, Option.map_some, ht.members_eq]
  rw [Decoder.view, Decoder.view, hmembership, h.geometry_eq, h.floor_eq, h.retunes_eq, Decoder.tracked,
    Decoder.tracked, h.sets.length_eq]

namespace Session

/-- What the user sees of an endpoint, if it is there. -/
def view (s : Session) : Endpoint → Option View
  | .sender name => (s.sender? name).map Encoder.view
  | .receiver name => (s.receiver? name).map Decoder.view

variable {s s' a : Session} {r : Request} {x : Endpoint} {answer : Answer} {size : ℕ}

/-- Two things are there and in a relation, or none of them is there. -/
def BothAt {α : Type} (R : α → α → Prop) (o o' : Option α) : Prop :=
  o = none ∧ o' = none ∨ ∃ x y, o = some x ∧ o' = some y ∧ R x y

/-- An endpoint is there in both sessions, and alike, or in none of them. -/
def AlikeAt (s a : Session) : Endpoint → Prop
  | .sender name => BothAt Encoder.Alike (s.sender? name) (a.sender? name)
  | .receiver name => BothAt Decoder.Alike (s.receiver? name) (a.receiver? name)

/-- The user sees no difference. -/
theorem view_eq_of_alikeAt (h : AlikeAt s a x) : s.view x = a.view x := by
  cases x with
  | sender name =>
    rcases h with ⟨h1, h2⟩ | ⟨e, e', h1, h2, he⟩
    · rw [view, view, h1, h2]
    · rw [view, view, h1, h2, Option.map_some, Option.map_some, he.view_eq]
  | receiver name =>
    rcases h with ⟨h1, h2⟩ | ⟨d, d', h1, h2, hd⟩
    · rw [view, view, h1, h2]
    · rw [view, view, h1, h2, Option.map_some, Option.map_some, hd.view_eq]

/-- A request to other endpoints leaves the sender of a name as it was. -/
theorem sender?_of_performs {name : String} (hx : Endpoint.concerns (.sender name) r = false)
    (hs : s.Performs r s' answer) : s'.sender? name = s.sender? name := by
  cases hs with
  | openSender hbuild => exact lookup_put_of_ne fun heq => by simp [Endpoint.concerns, heq] at hx
  | encode hsender hdone => exact lookup_put_of_ne fun heq => by simp [Endpoint.concerns, heq] at hx
  | close => exact lookup_filter_of_ne fun heq => by simp [Endpoint.concerns, heq] at hx
  | giveBack =>
    unfold giveBack
    split <;> rfl
  | _ => rfl

/-- A request to other endpoints leaves the receiver of a name as it was. -/
theorem receiver?_of_performs {name : String} (hx : Endpoint.concerns (.receiver name) r = false)
    (hs : s.Performs r s' answer) : s'.receiver? name = s.receiver? name := by
  cases hs with
  | openReceiver hbuild => exact lookup_put_of_ne fun heq => by simp [Endpoint.concerns, heq] at hx
  | decode hreceiver hdone => exact lookup_put_of_ne fun heq => by simp [Endpoint.concerns, heq] at hx
  | close => exact lookup_filter_of_ne fun heq => by simp [Endpoint.concerns, heq] at hx
  | giveBack =>
    unfold giveBack
    split <;> rfl
  | _ => rfl

theorem alikeAt_next (h : AlikeAt s a x) (hx : x.concerns r = false) : AlikeAt (s.next r) a x := by
  rcases next_cases s r with ⟨-, heq⟩ | ⟨answer, hs⟩
  · rwa [heq]
  · cases x with
    | sender name =>
      rw [AlikeAt, sender?_of_performs hx hs]
      exact h
    | receiver name =>
      rw [AlikeAt, receiver?_of_performs hx hs]
      exact h

/-- An endpoint that is opened or used, in both sessions. -/
theorem bothAt_put {α : Type} {R : α → α → Prop} {b c : α} (h : R b c) (entries entries' : List (String × α))
    (name : String) : BothAt R ((put entries name b).lookup name) ((put entries' name c).lookup name) :=
  .inr ⟨b, c, lookup_put_self .., lookup_put_self .., h⟩

/-- An endpoint that is closed, in both sessions. -/
theorem bothAt_filter {α : Type} (R : α → α → Prop) (entries entries' : List (String × α)) (name : String) :
    BothAt R ((entries.filter (·.1 ≠ name)).lookup name) ((entries'.filter (·.1 ≠ name)).lookup name) :=
  .inl ⟨lookup_filter_self .., lookup_filter_self ..⟩

theorem perform_alike_sender {name : String} (h : AlikeAt s a (.sender name))
    (hsize : a.shared.pool.bufferSize = s.shared.pool.bufferSize) (hx : Endpoint.concerns (.sender name) r = true) :
    Agree (fun p q => AlikeAt p.1 q.1 (.sender name) ∧ q.2 = p.2) (s.perform r) (a.perform r) := by
  cases r with
  | openSender other plan start =>
    obtain rfl : other = name := by simpa [Endpoint.concerns] using hx
    refine (Encoder.build_alike plan start hsize).bind fun p q hpq => .ok ⟨?_, rfl⟩
    exact bothAt_put hpq _ _ other
  | encode other call =>
    obtain rfl : other = name := by simpa [Endpoint.concerns] using hx
    rw [perform, perform]
    rcases h with ⟨h1, h2⟩ | ⟨e, e', h1, h2, he⟩
    · rw [h1, h2]
      exact .ok ⟨.inl ⟨h1, h2⟩, rfl⟩
    · rw [h1, h2]
      unfold Session.encode
      refine Agree.bind (R := fun p q => AlikeAt p.1 q.1 (.sender other) ∧ q.2.packet = p.2.packet ∧
        q.2.parity = p.2.parity) ?_ ?_
      · refine (he.encode s.shared.counters a.shared.counters _ _ _).bind fun p q hpq => .ok ⟨?_, hpq.2⟩
        exact bothAt_put hpq.1 _ _ other
      · rintro p q ⟨halike, hpacket, hparity⟩
        exact .ok ⟨halike, by simp only [hpacket, hparity]⟩
  | close other =>
    obtain rfl : other = name := by simpa [Endpoint.concerns] using hx
    exact .ok ⟨bothAt_filter _ _ _ other, rfl⟩
  | _ => cases hx

theorem perform_alike_receiver {name : String} (h : AlikeAt s a (.receiver name))
    (hs : s.Holds size (Encoder.Running size) Decoder.Sound) (ha : a.Holds size (Encoder.Running size) Decoder.Sound)
    (hx : Endpoint.concerns (.receiver name) r = true) :
    Agree (fun p q => AlikeAt p.1 q.1 (.receiver name) ∧ q.2 = p.2) (s.perform r) (a.perform r) := by
  cases r with
  | openReceiver other plan =>
    obtain rfl : other = name := by simpa [Endpoint.concerns] using hx
    rw [perform, perform]
    cases hbuild : Decoder.build plan with
    | error e => exact .error e
    | ok d =>
      obtain ⟨g, -, hd⟩ := Decoder.build_spec hbuild
      have hidle : d.Alike d := Decoder.alike_of_idle (by rw [hd])
      exact .ok ⟨bothAt_put hidle _ _ other, rfl⟩
  | decode other packet =>
    obtain rfl : other = name := by simpa [Endpoint.concerns] using hx
    rw [perform, perform]
    rcases h with ⟨h1, h2⟩ | ⟨d, d', h1, h2, hd⟩
    · rw [h1, h2]
      exact .ok ⟨.inl ⟨h1, h2⟩, rfl⟩
    · rw [h1, h2]
      unfold Session.decode
      refine Agree.bind (R := fun p q => AlikeAt p.1 q.1 (.receiver other) ∧
        q.2.recovered.map (·.bytes) = p.2.recovered.map (·.bytes)) ?_ ?_
      · refine (hd.decode (hs.receiver h1) (ha.receiver h2) s.shared a.shared packet).bind
          fun p q hpq => .ok ⟨?_, hpq.2⟩
        exact bothAt_put hpq.1 _ _ other
      · rintro p q ⟨halike, hbodies⟩
        exact .ok ⟨halike, by simp only [hbodies]⟩
  | close other =>
    obtain rfl : other = name := by simpa [Endpoint.concerns] using hx
    exact .ok ⟨bothAt_filter _ _ _ other, rfl⟩
  | _ => cases hx

/-- **A request to an endpoint** that is alike in two sessions is answered in the same way, and the endpoint stays
alike. -/
theorem perform_alike (h : AlikeAt s a x) (hs : s.Holds size (Encoder.Running size) Decoder.Sound)
    (ha : a.Holds size (Encoder.Running size) Decoder.Sound) (hx : x.concerns r = true) :
    Agree (fun p q => AlikeAt p.1 q.1 x ∧ q.2 = p.2) (s.perform r) (a.perform r) := by
  cases x with
  | sender name => exact perform_alike_sender h (ha.size_eq.trans hs.size_eq.symm) hx
  | receiver name => exact perform_alike_receiver h hs ha hx

/-- The requests to an endpoint do to it alone what they do among others. -/
theorem answers_alike (h : AlikeAt s a x) (hs : s.Holds size (Encoder.Running size) Decoder.Sound)
    (ha : a.Holds size (Encoder.Running size) Decoder.Sound) (requests : List Request) :
    (s.answers requests).filter (x.concerns ·.1) = a.answers (requests.filter x.concerns) ∧
      AlikeAt (s.after requests) (a.after (requests.filter x.concerns)) x := by
  induction requests generalizing s a with
  | nil => exact ⟨rfl, h⟩
  | cons r rest ih =>
    -- a request to another endpoint is made in the first session only
    have hs' := hs.next (endures_sound size) r
    have ha' := ha.next (endures_sound size) r
    by_cases hx : x.concerns r = true
    · obtain ⟨hanswer, hnext⟩ : (s.perform r).map Prod.snd = (a.perform r).map Prod.snd ∧
          AlikeAt (s.next r) (a.next r) x := by
        have hboth := perform_alike h hs ha hx
        unfold next
        generalize s.perform r = p, a.perform r = q at hboth
        cases hboth with
        | error e => exact ⟨rfl, h⟩
        | ok hpq => exact ⟨congrArg Except.ok hpq.2.symm, hpq.1⟩
      obtain ⟨ih1, ih2⟩ := ih hnext hs' ha'
      constructor
      · simp only [answers, List.filter_cons, hx, if_true, ih1, hanswer]
      · rw [List.filter_cons_of_pos hx]
        exact ih2
    · obtain ⟨ih1, ih2⟩ := ih (alikeAt_next h (by simpa using hx)) hs' ha
      constructor
      · simp only [answers, List.filter_cons, hx, if_false, Bool.false_eq_true, ih1]
      · rw [List.filter_cons_of_neg hx]
        exact ih2

/-- **Endpoints do not influence each other.** Take a pool that holds any buffers, any counters, and any requests of
the user of a session: to any number of endpoints, for buffers of the pool, and with any buffers handed to it. Every
endpoint answers byte for byte what it answers alone on a fresh pool of the same buffer size, and looks the same. The
fresh pool may keep no buffer at all, so nothing that a recycled buffer held shows up in an answer. -/
theorem isolation (pool : BufferPool) (counters : Counters) (requests : List Request) (x : Endpoint)
    (retention : ℕ) :
    (answers ⟨⟨pool, counters⟩, [], [], []⟩ requests).filter (x.concerns ·.1) =
        (create (.create pool.bufferSize retention)).answers (requests.filter x.concerns) ∧
      (after ⟨⟨pool, counters⟩, [], [], []⟩ requests).view x =
        ((create (.create pool.bufferSize retention)).after (requests.filter x.concerns)).view x := by
  have hnew : AlikeAt ⟨⟨pool, counters⟩, [], [], []⟩ (create (.create pool.bufferSize retention)) x := by
    cases x <;> exact .inl ⟨rfl, rfl⟩
  obtain ⟨h1, h2⟩ := answers_alike hnew (holds_new ⟨pool, counters⟩ _ _)
    (holds_new ⟨.create pool.bufferSize retention, .zero⟩ _ _) requests
  exact ⟨h1, view_eq_of_alikeAt h2⟩

end Session

end PacketFec
