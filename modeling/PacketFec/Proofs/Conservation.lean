import Mathlib
import PacketFec.Proofs.SessionRuns

/-!
# No buffer is lost

A session holds buffers in the scratch slots of its senders, in the sets of its receivers, and as recovered buffers
that its user has not handed back. Every request moves buffers between these places and the pool.

* `Session.held`: the buffers of a session that are out.
* `Session.Performs.exchanges`: **the account of a request**.
* `Session.tidy_after`: what the pool keeps, whatever is handed to it.
* `Session.farewell`: what hands all buffers of a session back.
* `Session.conservation`: **the buffers that are idle and those that are held are all that the pool has made**, as
  long as it has made no more than it may keep.
-/

namespace PacketFec

/-- Whether a request leaves the pool to the endpoints, and to what they have given away. -/
def Request.IsOwn : Request → Prop
  | .acquire => False
  | .release _ => False
  | _ => True

instance : DecidablePred Request.IsOwn := fun r => by cases r <;> unfold Request.IsOwn <;> infer_instance

namespace Session

open BufferPool

/-! ### Buffers of named things -/

section Gathered

variable {α : Type} {entries : List (String × α)}

/-- The buffers of all named things. -/
def gathered (buffers : α → List Buffer) (entries : List (String × α)) : Multiset Buffer :=
  ↑(entries.flatMap fun entry => buffers entry.2)

/-- The buffers of the thing of a name, if there is one. -/
def gatheredAt (buffers : α → List Buffer) (entries : List (String × α)) (name : String) : Multiset Buffer :=
  ↑(((entries.lookup name).map buffers).getD [])

theorem gathered_cons (buffers : α → List Buffer) (entry : String × α) (entries : List (String × α)) :
    gathered buffers (entry :: entries) = ↑(buffers entry.2) + gathered buffers entries := by
  rw [gathered, List.flatMap_cons, ← Multiset.coe_add, gathered]

theorem gathered_put (buffers : α → List Buffer) (name : String) (a : α) :
    gathered buffers (put entries name a) = ↑(buffers a) + gathered buffers (entries.filter (·.1 ≠ name)) :=
  gathered_cons ..

theorem gathered_eq_sum (buffers : α → List Buffer) (entries : List (String × α)) :
    gathered buffers entries = (entries.map fun entry => (buffers entry.2 : Multiset Buffer)).sum := by
  induction entries with
  | nil => rfl
  | cons entry rest ih => rw [gathered_cons, List.map_cons, List.sum_cons, ih]

/-- What is gathered is that of a name and that of the other names. -/
theorem gathered_split (buffers : α → List Buffer) (h : (entries.map Prod.fst).Nodup) (name : String) :
    gathered buffers entries =
      gatheredAt buffers entries name + gathered buffers (entries.filter (·.1 ≠ name)) := by
  rw [gathered_eq_sum, gathered_eq_sum, sum_split (fun a => (buffers a : Multiset Buffer)) h name, gatheredAt]
  cases entries.lookup name <;> rfl

end Gathered

/-! ### The account of a request -/

variable {s s' : Session} {r : Request} {answer : Answer} {size : ℕ} {P : Encoder → Prop} {Q : Decoder → Prop}

/-- The buffers of a session that are out. -/
def held (s : Session) : Multiset Buffer :=
  gathered Encoder.buffers s.senders + gathered (·.sets.buffers) s.receivers + ↑(s.recovered.filterMap id)

/-- An account among other buffers. -/
theorem exchanges_within {p p' : BufferPool} {x y held held' : Multiset Buffer} (other : Multiset Buffer)
    (h : p.Exchanges x p' y) (hheld : held = x + other) (hheld' : held' = y + other) : p.Exchanges held p' held' := by
  rw [hheld, hheld']
  exact h.frame other

theorem closeSender_exchanges (s : Session) (name : String) (pool : BufferPool) :
    pool.Exchanges (gatheredAt Encoder.buffers s.senders name) (s.closeSender name pool) 0 := by
  unfold closeSender gatheredAt sender?
  cases s.senders.lookup name with
  | none => exact .refl pool 0
  | some e => exact e.close_exchanges pool

theorem closeReceiver_exchanges (s : Session) (name : String) (pool : BufferPool) :
    pool.Exchanges (gatheredAt (·.sets.buffers) s.receivers name) (s.closeReceiver name pool) 0 := by
  unfold closeReceiver gatheredAt receiver?
  cases s.receivers.lookup name with
  | none => exact .refl pool 0
  | some d => exact d.close_exchanges pool

/-- A buffer handed back is one less among the recovered ones. -/
theorem recovered_set {recovered : List (Option Buffer)} {i : ℕ} {b : Buffer} (h : recovered[i]? = some (some b)) :
    (recovered.filterMap id : Multiset Buffer) = {b} + ↑((recovered.set i none).filterMap id) := by
  obtain ⟨hlt, hb⟩ := List.getElem?_eq_some_iff.1 h
  have hvacant : (recovered.set i none)[i]? = some none := by rw [List.getElem?_set_self hlt]
  obtain ⟨l₁, l₂, h1, h2⟩ := ShardSet.buffers_set hvacant b
  rw [List.set_set, ← hb, List.set_getElem_self hlt] at h2
  rw [h1, h2, ← Multiset.coe_add, ← Multiset.coe_add, ← Multiset.cons_coe, ← Multiset.singleton_add]
  exact add_left_comm _ _ _

/-- **The account of a request** that leaves the pool to the endpoints. -/
theorem Performs.exchanges (hs : s.Performs r s' answer) (h : s.Holds size P Q) (hown : r.IsOwn) :
    s.shared.pool.Exchanges s.held s'.shared.pool s'.held := by
  cases hs with
  | @openSender name plan start e pool hbuild =>
    -- the new sender takes its buffers before the old one hands its own back
    have hnew := (Encoder.build_spec hbuild).2.frame s.held
    rw [zero_add] at hnew
    refine hnew.trans (exchanges_within _ (closeSender_exchanges s name pool) ?_ (zero_add _).symm)
    unfold held addSender
    rw [gathered_put, gathered_split Encoder.buffers h.senderNames name]
    abel
  | @openReceiver name plan d hbuild =>
    obtain ⟨g, -, hd⟩ := Decoder.build_spec hbuild
    have hidle : (d.sets.buffers : Multiset Buffer) = 0 := by rw [hd]; rfl
    refine exchanges_within _ (closeReceiver_exchanges s name s.shared.pool) ?_ (zero_add _).symm
    unfold held addReceiver
    rw [gathered_put, hidle, gathered_split (fun d : Decoder => d.sets.buffers) h.receiverNames name]
    abel
  | noSender => exact .refl _ _
  | @encode name call e done hsender hdone =>
    have hat : gatheredAt Encoder.buffers s.senders name = ↑e.buffers := by
      rw [gatheredAt, show s.senders.lookup name = some e from hsender]
      rfl
    refine exchanges_within (gathered Encoder.buffers (s.senders.filter (·.1 ≠ name)) +
      gathered (·.sets.buffers) s.receivers + ↑(s.recovered.filterMap id))
      (Encoder.encode_exchanges hdone s.shared.pool) ?_ ?_
    · unfold held
      rw [gathered_split Encoder.buffers h.senderNames name, hat]
      abel
    · unfold held
      rw [gathered_put]
      abel
  | noReceiver => exact .refl _ _
  | @decode name packet d done hreceiver hdone =>
    have hat : gatheredAt (fun d : Decoder => d.sets.buffers) s.receivers name = ↑d.sets.buffers := by
      rw [gatheredAt, show s.receivers.lookup name = some d from hreceiver]
      rfl
    have hmore : ((s.recovered ++ done.recovered.map some).filterMap id : Multiset Buffer) =
        ↑(s.recovered.filterMap id) + ↑done.recovered := by
      rw [List.filterMap_append, List.filterMap_map, Multiset.coe_add]
      simp
    refine exchanges_within (gathered Encoder.buffers s.senders +
      gathered (·.sets.buffers) (s.receivers.filter (·.1 ≠ name)) + ↑(s.recovered.filterMap id))
      (Decoder.decode_exchanges hdone) ?_ ?_
    · unfold held
      rw [gathered_split (fun d : Decoder => d.sets.buffers) h.receiverNames name, hat]
      abel
    · unfold held
      rw [gathered_put, hmore]
      abel
  | @close name =>
    refine (exchanges_within (gathered Encoder.buffers (s.senders.filter (·.1 ≠ name)) +
      gathered (·.sets.buffers) s.receivers + ↑(s.recovered.filterMap id))
      (closeSender_exchanges s name s.shared.pool) ?_ (zero_add _).symm).trans
      (exchanges_within _ (closeReceiver_exchanges s name _) ?_ (zero_add _).symm)
    · unfold held
      rw [gathered_split Encoder.buffers h.senderNames name]
      abel
    · unfold held Session.drop
      rw [gathered_split (fun d : Decoder => d.sets.buffers) h.receiverNames name]
      abel
  | @giveBack i =>
    unfold Session.giveBack
    split
    · rename_i b hb
      refine exchanges_within _ (exchanges_release s.shared.pool b) ?_ (zero_add _).symm
      unfold held
      rw [recovered_set hb]
      abel
    · exact .refl _ _
  | acquire => cases hown
  | release => cases hown

/-- **The account of any requests** that leave the pool to the endpoints. -/
theorem after_exchanges (h : s.Holds size (Encoder.Running size) Decoder.Sound) {requests : List Request}
    (hown : ∀ r ∈ requests, r.IsOwn) :
    s.shared.pool.Exchanges s.held (s.after requests).shared.pool (s.after requests).held := by
  induction requests generalizing s with
  | nil => exact .refl _ _
  | cons r rest ih =>
    have hrest := ih (h.next (endures_sound size) r) fun r' hr' => hown r' (List.mem_cons_of_mem _ hr')
    rcases next_cases s r with ⟨-, heq⟩ | ⟨answer, hs⟩
    · rw [heq] at hrest
      rw [after_cons, heq]
      exact hrest
    · exact (hs.exchanges h (hown r (List.mem_cons_self ..))).trans hrest

/-- A session holds the buffers of a group for each sender, one for each member of a set, and those that its user
has not handed back. -/
theorem card_held (h : s.Holds size (Encoder.Running size) Decoder.Sound) :
    s.held.card = (s.senders.map fun entry => entry.2.geometry.total).sum +
      (s.receivers.map fun entry => (entry.2.sets.map fun set => set.2.members).sum).sum +
      s.recovered.countP Option.isSome := by
  have hsenders : (gathered Encoder.buffers s.senders).card =
      (s.senders.map fun entry => entry.2.geometry.total).sum := by
    rw [gathered, Multiset.coe_card, List.length_flatMap]
    congr 1
    apply List.map_congr_left
    intro entry hentry
    exact (h.senders entry hentry).length_buffers
  have hreceivers : (gathered (fun d : Decoder => d.sets.buffers) s.receivers).card =
      (s.receivers.map fun entry => (entry.2.sets.map fun set => set.2.members).sum).sum := by
    rw [gathered, Multiset.coe_card, List.length_flatMap]
    congr 1
    apply List.map_congr_left
    intro entry hentry
    rw [SetTable.buffers, List.length_flatMap]
    congr 1
    apply List.map_congr_left
    intro set hset
    exact ((h.receivers entry hentry).sets set hset).members_eq.symm
  rw [held, Multiset.card_add, Multiset.card_add, hsenders, hreceivers, Multiset.coe_card,
    List.length_filterMap_eq_countP]
  rfl

/-! ### What the pool keeps -/

/-- A request keeps the pool within its bounds, whatever it hands to it. -/
theorem tidy_next (h : s.Holds size (Encoder.Running size) Decoder.Sound) (htidy : s.shared.pool.Tidy)
    (r : Request) : (s.next r).shared.pool.Tidy ∧ (s.next r).shared.pool.retention = s.shared.pool.retention := by
  rcases next_cases s r with ⟨-, heq⟩ | ⟨answer, hs⟩
  · rw [heq]
    exact ⟨htidy, rfl⟩
  · by_cases hown : r.IsOwn
    · have hpool := hs.exchanges h hown
      exact ⟨hpool.tidy htidy, hpool.retention_eq⟩
    · generalize hnext : s.next r = s' at hs
      cases hs with
      | acquire => exact ⟨htidy.acquire, retention_acquire _⟩
      | @release b =>
        have hpool := exchanges_releaseAll s.shared.pool [b]
        exact ⟨hpool.tidy htidy, hpool.retention_eq⟩
      | _ => exact absurd trivial hown

/-- **What the pool keeps behind any requests**, whatever is handed to it. -/
theorem tidy_after (h : s.Holds size (Encoder.Running size) Decoder.Sound) (htidy : s.shared.pool.Tidy)
    (requests : List Request) :
    (s.after requests).shared.pool.Tidy ∧ (s.after requests).shared.pool.retention = s.shared.pool.retention := by
  induction requests generalizing s with
  | nil => exact ⟨htidy, rfl⟩
  | cons r rest ih =>
    obtain ⟨h1, h2⟩ := tidy_next h htidy r
    obtain ⟨h3, h4⟩ := ih (h.next (endures_sound size) r) h1
    exact ⟨h3, h4.trans h2⟩

/-! ### Handing everything back -/

theorem after_append (s : Session) (requests more : List Request) :
    s.after (requests ++ more) = (s.after requests).after more := List.foldl_append

theorem made_releaseAll (p : BufferPool) (bs : List Buffer) : (p.releaseAll bs).made = p.made := by
  induction bs generalizing p with
  | nil => rfl
  | cons b rest ih => exact (ih (p.release b)).trans (sizes_release p b).2.2

/-- What closes all endpoints of a session and hands all recovered buffers back. -/
def farewell (s : Session) : List Request :=
  (s.senders.map Prod.fst ++ s.receivers.map Prod.fst).map .close ++
    (List.range s.recovered.length).map .giveBack

theorem isOwn_of_mem_farewell (h : r ∈ s.farewell) : r.IsOwn := by
  rcases List.mem_append.1 h with h | h
  · obtain ⟨name, -, rfl⟩ := List.mem_map.1 h
    trivial
  · obtain ⟨i, -, rfl⟩ := List.mem_map.1 h
    trivial

theorem made_drop (s : Session) (name : String) : (s.drop name).shared.pool.made = s.shared.pool.made := by
  unfold Session.drop closeReceiver closeSender
  simp only
  split <;> split <;> simp only [Decoder.close, Encoder.close, made_releaseAll]

theorem made_giveBack (s : Session) (i : ℕ) : (s.giveBack i).shared.pool.made = s.shared.pool.made := by
  unfold Session.giveBack
  split
  · exact made_releaseAll _ _
  · rfl

/-- Closing some names leaves the endpoints of the other names. -/
theorem after_closes (s : Session) (names : List String) :
    (∀ entry ∈ (s.after (names.map .close)).senders, entry ∈ s.senders ∧ entry.1 ∉ names) ∧
      (∀ entry ∈ (s.after (names.map .close)).receivers, entry ∈ s.receivers ∧ entry.1 ∉ names) ∧
      (s.after (names.map .close)).recovered = s.recovered ∧
      (s.after (names.map .close)).shared.pool.made = s.shared.pool.made := by
  induction names generalizing s with
  | nil => exact ⟨fun _ h => ⟨h, List.not_mem_nil⟩, fun _ h => ⟨h, List.not_mem_nil⟩, rfl, rfl⟩
  | cons name rest ih =>
    obtain ⟨h1, h2, h3, h4⟩ := ih (s.drop name)
    rw [List.map_cons, after_cons, show s.next (.close name) = s.drop name from rfl]
    refine ⟨?_, ?_, h3, h4.trans (made_drop s name)⟩
    · intro entry hentry
      obtain ⟨hmem, hrest⟩ := h1 entry hentry
      obtain ⟨hmem, hne⟩ := List.mem_filter.1 hmem
      exact ⟨hmem, by simpa [hrest] using hne⟩
    · intro entry hentry
      obtain ⟨hmem, hrest⟩ := h2 entry hentry
      obtain ⟨hmem, hne⟩ := List.mem_filter.1 hmem
      exact ⟨hmem, by simpa [hrest] using hne⟩

/-- Handing the first recovered buffers back leaves none of them. -/
theorem after_giveBacks (s : Session) (n : ℕ) :
    (s.after ((List.range n).map .giveBack)).senders = s.senders ∧
      (s.after ((List.range n).map .giveBack)).receivers = s.receivers ∧
      (s.after ((List.range n).map .giveBack)).recovered.length = s.recovered.length ∧
      (∀ i < n, ∀ b, (s.after ((List.range n).map .giveBack)).recovered[i]? ≠ some (some b)) ∧
      (s.after ((List.range n).map .giveBack)).shared.pool.made = s.shared.pool.made := by
  induction n with
  | zero => exact ⟨rfl, rfl, rfl, nofun, rfl⟩
  | succ n ih =>
    obtain ⟨h1, h2, h3, h4, h5⟩ := ih
    rw [List.range_succ, List.map_append, after_append]
    generalize s.after ((List.range n).map .giveBack) = s' at h1 h2 h3 h4 h5
    rw [List.map_singleton, after_cons, after_nil, show s'.next (.giveBack n) = s'.giveBack n from rfl, made_giveBack]
    unfold Session.giveBack
    split
    · refine ⟨h1, h2, by rw [List.length_set, h3], ?_, h5⟩
      intro i hi b
      rcases Nat.lt_succ_iff_lt_or_eq.1 hi with hlt | rfl
      · rw [List.getElem?_set_ne (by omega)]
        exact h4 i hlt b
      · rw [List.getElem?_set_self']
        cases s'.recovered[i]? <;> simp
    · rename_i hnone
      refine ⟨h1, h2, h3, ?_, h5⟩
      intro i hi b
      rcases Nat.lt_succ_iff_lt_or_eq.1 hi with hlt | rfl
      · exact h4 i hlt b
      · exact hnone b

/-- Behind a farewell nothing is held. -/
theorem after_farewell (s : Session) : (s.after s.farewell).senders = [] ∧ (s.after s.farewell).receivers = [] ∧
    (s.after s.farewell).recovered.countP Option.isSome = 0 ∧
    (s.after s.farewell).shared.pool.made = s.shared.pool.made := by
  obtain ⟨h1, h2, h3, h4⟩ := after_closes s (s.senders.map Prod.fst ++ s.receivers.map Prod.fst)
  rw [farewell, after_append]
  generalize s.after ((s.senders.map Prod.fst ++ s.receivers.map Prod.fst).map .close) = s' at h1 h2 h3 h4
  obtain ⟨h5, h6, h7, h8, h9⟩ := after_giveBacks s' s.recovered.length
  refine ⟨?_, ?_, ?_, h9.trans h4⟩
  · rw [h5, List.eq_nil_iff_forall_not_mem]
    intro entry hentry
    obtain ⟨hmem, hnot⟩ := h1 entry hentry
    exact hnot (List.mem_append_left _ (List.mem_map_of_mem hmem))
  · rw [h6, List.eq_nil_iff_forall_not_mem]
    intro entry hentry
    obtain ⟨hmem, hnot⟩ := h2 entry hentry
    exact hnot (List.mem_append_right _ (List.mem_map_of_mem hmem))
  · rw [List.countP_eq_zero]
    intro o ho hsome
    obtain ⟨i, hi, rfl⟩ := List.mem_iff_getElem.1 ho
    obtain ⟨b, hb⟩ := Option.isSome_iff_exists.1 hsome
    exact h8 i (by rw [← h3, ← h7]; exact hi) b (by rw [List.getElem?_eq_getElem hi, hb])

/-! ### Conservation -/

theorem holds_create (size retention : ℕ) :
    (create (.create size retention)).Holds size (Encoder.Running size) Decoder.Sound :=
  holds_new ⟨.create size retention, .zero⟩ _ _

/-- What is idle and what is held is what a pool has made that may keep all of it. -/
theorem balance (retention : ℕ) (hsize : 1 ≤ size) {requests : List Request} (hown : ∀ r ∈ requests, r.IsOwn)
    (hmade : ((create (.create size retention)).after requests).shared.pool.made ≤ retention) :
    ((create (.create size retention)).after requests).shared.pool.available +
      ((create (.create size retention)).after requests).held.card =
        ((create (.create size retention)).after requests).shared.pool.made := by
  have hpool := after_exchanges (holds_create size retention) hown
  have hlent := hpool.lent hsize (fun b hb => absurd hb (Multiset.notMem_zero b)) 0 (lent_create size retention)
    (hmade.trans hpool.retention_eq.ge)
  rwa [Nat.zero_add] at hlent

/-- **Conservation of buffers.** Take a new pool, and any requests of the user of a session. The pool keeps no more
buffers than it may, each of them is large enough, and what it hands out is all zero, also where any buffers have been
handed to it. Where the pool has been left to the endpoints and has made no more than it may keep, the idle buffers,
those of a group for each sender, the members of all sets and the recovered buffers that the user still has are all
that it has made; and once the user has closed all endpoints and handed all recovered buffers back, all of them are
idle. -/
theorem conservation (size retention : ℕ) (hsize : 1 ≤ size) (requests : List Request) :
    let s := (create (.create size retention)).after requests
    (s.shared.pool.available ≤ retention ∧ (∀ b ∈ s.shared.pool.free, size ≤ b.capacity) ∧
      s.shared.pool.acquire.1.bytes = Bytes.zeros size) ∧
    ((∀ r ∈ requests, r.IsOwn) → s.shared.pool.made ≤ retention →
      s.shared.pool.available + (s.senders.map fun entry => entry.2.geometry.total).sum +
          (s.receivers.map fun entry => (entry.2.sets.map fun set => set.2.members).sum).sum +
          s.recovered.countP Option.isSome = s.shared.pool.made ∧
        (s.after s.farewell).shared.pool.available = s.shared.pool.made) := by
  intro s
  have hholds : s.Holds size _ _ := (holds_create size retention).after (endures_sound size) requests
  obtain ⟨htidy, hretention⟩ := tidy_after (holds_create size retention) (tidy_create size retention) requests
  have hbytes := s.shared.pool.bytes_acquire
  rw [hholds.size_eq] at hbytes
  refine ⟨⟨?_, ?_, hbytes⟩, ?_⟩
  · exact htidy.within.trans hretention.le
  · intro b hb
    exact hholds.size_eq.ge.trans (htidy.roomy b hb)
  · intro hown hmade
    constructor
    · have hbalance : s.shared.pool.available + s.held.card = s.shared.pool.made := balance retention hsize hown hmade
      rw [card_held hholds] at hbalance
      omega
    · obtain ⟨h1, h2, h3, h4⟩ := after_farewell s
      have hall : ∀ r ∈ requests ++ s.farewell, r.IsOwn := by
        intro r hr
        rcases List.mem_append.1 hr with hr | hr
        · exact hown r hr
        · exact isOwn_of_mem_farewell hr
      have hbalance := balance retention hsize hall (by rw [after_append, h4]; exact hmade)
      rw [after_append, card_held (hholds.after (endures_sound size) _), h1, h2, h3, h4] at hbalance
      exact hbalance

/-- A lost packet is rebuilt, one recovered buffer is handed back that does not exist, and a sender without data
shards is refused. Of the five buffers that the pool has made, two are in the sender, one is idle, one is in the set
of the next group, and one is with the user. -/
theorem conservation_of_rebuilt_packet : 1 ≤ 16 ∧
    let s := (create (.create 16 8)).after [.openSender "a" (.parts ⟨1, 1⟩ 0) none,
      .openReceiver "b" (.parts ⟨2, 1⟩ 0), .encode "a" ⟨.replicate 9 7, 5, 0⟩,
      .decode "b" [0, 0, 0, 0, 0xF1, 0, 3, 0, 7], .decode "b" [2, 0, 0, 0, 0xF2, 0, 3, 0, 8],
      .decode "b" [3, 0, 0, 0, 0xF1, 0, 3, 0, 8], .giveBack 7, .openSender "c" (.parts ⟨0, 1⟩ 0) none]
    s.shared.pool.available + (s.senders.map fun entry => entry.2.geometry.total).sum +
        (s.receivers.map fun entry => (entry.2.sets.map fun set => set.2.members).sum).sum +
        s.recovered.countP Option.isSome = s.shared.pool.made ∧
      (s.after s.farewell).shared.pool.available = s.shared.pool.made :=
  ⟨by decide, (conservation 16 8 (by decide) _).2 (by decide) (by decide)⟩

end Session

end PacketFec
