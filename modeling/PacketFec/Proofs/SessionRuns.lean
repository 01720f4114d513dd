import Mathlib
import PacketFec.Proofs.Lending
import PacketFec.Proofs.Transmission
import PacketFec.Session

/-!
# Runs of a session

The user of a session opens and closes senders and receivers, hands them packets, hands recovered buffers back, and
may take buffers from the pool and hand buffers to it that come from anywhere. A request that fails is answered with
its error and leaves the session as it was. A run that ends in a fault is the run of the requests up to there.

* `Session.perform`, `Session.next`, `Session.after`: one request, and any number of them.
* `Session.Performs`: **what a request can do** where it is answered.
* `Session.sum_split`: what all named things come to, split at one name.
* `Session.Holds`, `Session.Holds.after`: a property of all senders and one of all receivers that every request
  keeps.
* `Session.endures_sound`: what is kept of every endpoint.
-/

namespace PacketFec

/-- What an endpoint is made from: its parts, or a configuration, which must be valid. -/
inductive Plan where
  | parts (g : Geometry) (offset : ℕ)
  | config (c : Config)

/-- What the user of a session asks for. -/
inductive Request where
  /-- Open a sender, with its numbering started where that is said. -/
  | openSender (name : String) (plan : Plan) (start : Option UInt32)
  /-- Open a receiver. -/
  | openReceiver (name : String) (plan : Plan)
  /-- Seal a packet. -/
  | encode (name : String) (call : Call)
  /-- Take a packet. -/
  | decode (name : String) (packet : Bytes)
  /-- Close the sender and the receiver of a name. -/
  | close (name : String)
  /-- Hand a recovered buffer back. -/
  | giveBack (i : ℕ)
  /-- Take a buffer from the pool. -/
  | acquire
  /-- Hand any buffer to the pool. -/
  | release (b : Buffer)

/-- What a request is answered with. -/
inductive Answer where
  | done
  /-- There is no endpoint of that name. -/
  | absent
  /-- The sealed packet, and the parity of its group. -/
  | sealed (packet : Bytes) (parity : List Bytes)
  /-- The rebuilt bodies. -/
  | recovered (bodies : List Bytes)
  /-- The content of a buffer taken from the pool. -/
  | buffer (bytes : Bytes)

namespace Encoder

/-- A sender made from a plan. -/
def make (plan : Plan) (pool : BufferPool) : Except Error (Encoder × BufferPool) :=
  match plan with
  | .parts g offset => create g offset pool
  | .config c => ofConfig c pool

/-- A sender made from a plan, with its numbering started where that is said. -/
def build (plan : Plan) (start : Option UInt32) (pool : BufferPool) : Except Error (Encoder × BufferPool) := do
  let made ← make plan pool
  match start with
  | none => return made
  | some seqid => return (← made.1.startAt seqid, made.2)

/-- A sender that was made with some buffer size has sealed some packets since. -/
def Running (size : ℕ) (e : Encoder) : Prop := ∃ g offset base past, e.Follows g offset size base past

variable {plan : Plan} {start : Option UInt32} {pool pool' : BufferPool} {e : Encoder}

theorem create_of_make (h : make plan pool = .ok (e, pool')) : ∃ g offset, create g offset pool = .ok (e, pool') := by
  cases plan with
  | parts g offset => exact ⟨g, offset, h⟩
  | config c =>
    obtain ⟨_, -, h⟩ := Checked.bind_eq_ok.1 h
    exact ⟨c.geometry, c.headerOffset, h⟩

/-- A new sender has taken its buffers from the pool, and follows no call. -/
theorem build_spec (h : build plan start pool = .ok (e, pool')) :
    e.Running pool.bufferSize ∧ pool.Exchanges 0 pool' ↑e.buffers := by
  obtain ⟨⟨made, pool₁⟩, hmake, h⟩ := Checked.bind_eq_ok.1 h
  obtain ⟨g, offset, hcreate⟩ := create_of_make hmake
  have hpool := create_exchanges hcreate
  cases start with
  | none =>
    cases h
    obtain ⟨htracks, hlatest⟩ := tracks_create hcreate
    refine ⟨⟨g, offset, 0, [], ?_, hlatest⟩, hpool⟩
    simpa [openBodies] using htracks
  | some seqid =>
    -- starting elsewhere touches the numbering only
    obtain ⟨started, hstart, h⟩ := Checked.bind_eq_ok.1 h
    cases h
    obtain ⟨e₀, hstart', hfollows, -⟩ := follows_nil hcreate seqid
    obtain rfl : e = e₀ := Except.ok.inj (hstart.symm.trans hstart')
    refine ⟨⟨g, offset, _, [], hfollows⟩, ?_⟩
    obtain ⟨_, -, hstart⟩ := Checked.bind_eq_ok.1 hstart
    obtain ⟨_, -, hstart⟩ := Checked.bind_eq_ok.1 hstart
    obtain ⟨_, -, hstart⟩ := Checked.bind_eq_ok.1 hstart
    cases hstart
    exact hpool

/-- Sealing a packet changes no counter. -/
theorem Running.encode {size : ℕ} (h : e.Running size) {counters : Counters} {packet : Bytes} {staleness now : ℕ}
    {s : Sealed} (hs : e.encode counters packet staleness now = .ok s) :
    s.encoder.Running size ∧ s.encoder.geometry = e.geometry ∧ s.counters = counters := by
  obtain ⟨g, offset, base, past, hfollows⟩ := h
  rcases encode_follows hfollows counters ⟨packet, staleness, now⟩ with ⟨r, hr, -⟩ | ⟨s', hs', -, hseals, hnext⟩
  · rw [hs] at hr
    cases hr
  · obtain rfl : s = s' := Except.ok.inj (hs.symm.trans hs')
    exact ⟨⟨g, offset, base, _, hnext⟩, hnext.tracks.geometry_eq.trans hfollows.tracks.geometry_eq.symm,
      hseals.counters_eq⟩

/-- A sender holds one buffer for each shard of a group. -/
theorem Running.length_buffers {size : ℕ} (h : e.Running size) : e.buffers.length = e.geometry.total := by
  obtain ⟨g, offset, base, past, hfollows⟩ := h
  rw [buffers, List.length_map, hfollows.tracks.slots, hfollows.tracks.geometry_eq]

end Encoder

namespace Decoder

/-- A receiver made from a plan. -/
def build (plan : Plan) : Except Error Decoder :=
  match plan with
  | .parts g _ => create g
  | .config c => ofConfig c

theorem build_spec {plan : Plan} {d : Decoder} (h : build plan = .ok d) :
    ∃ g : Geometry, g.Valid ∧ d = ⟨g, [], none, .empty, 0⟩ := by
  cases plan with
  | parts g offset => exact ⟨g, create_eq_ok_iff.1 h⟩
  | config c =>
    obtain ⟨_, -, h⟩ := Checked.bind_eq_ok.1 h
    exact ⟨c.geometry, create_eq_ok_iff.1 h⟩

end Decoder

namespace Session

/-! ### Requests -/

/-- Answer a request. -/
def perform (s : Session) : Request → Except Error (Session × Answer)
  | .openSender name plan start => do
    let (e, pool) ← Encoder.build plan start s.shared.pool
    return (s.addSender name e pool, .done)
  | .openReceiver name plan => do
    let d ← Decoder.build plan
    return (s.addReceiver name d, .done)
  | .encode name call =>
    match s.sender? name with
    | none => .ok (s, .absent)
    | some e => do
      let (s', done) ← s.encode name e call.packet call.staleness call.now
      return (s', .sealed done.packet done.parity)
  | .decode name packet =>
    match s.receiver? name with
    | none => .ok (s, .absent)
    | some d => do
      let (s', done) ← s.decode name d packet
      return (s', .recovered (done.recovered.map (·.bytes)))
  | .close name => .ok (s.drop name, .done)
  | .giveBack i => .ok (s.giveBack i, .done)
  | .acquire =>
    .ok ({ s with shared := { s.shared with pool := s.shared.pool.acquire.2 } }, .buffer s.shared.pool.acquire.1.bytes)
  | .release b => .ok ({ s with shared := s.shared.release [b] }, .done)

/-- The session behind a request. -/
def next (s : Session) (r : Request) : Session :=
  match s.perform r with
  | .ok (s', _) => s'
  | .error _ => s

/-- The session behind some requests. -/
def after (s : Session) (requests : List Request) : Session := requests.foldl next s

/-- The requests with their answers. -/
def answers (s : Session) : List Request → List (Request × Except Error Answer)
  | [] => []
  | r :: rest => (r, (s.perform r).map Prod.snd) :: (s.next r).answers rest

@[simp] theorem after_nil (s : Session) : s.after [] = s := rfl

@[simp] theorem after_cons (s : Session) (r : Request) (rest : List Request) :
    s.after (r :: rest) = (s.next r).after rest := rfl

variable {s s' : Session} {r : Request} {a : Answer}

/-- **What a request can do** where it is answered. -/
inductive Performs (s : Session) : Request → Session → Answer → Prop
  | openSender {name plan start e pool} (h : Encoder.build plan start s.shared.pool = .ok (e, pool)) :
      Performs s (.openSender name plan start) (s.addSender name e pool) .done
  | openReceiver {name plan d} (h : Decoder.build plan = .ok d) :
      Performs s (.openReceiver name plan) (s.addReceiver name d) .done
  | noSender {name call} (h : s.sender? name = none) : Performs s (.encode name call) s .absent
  | encode {name call e done} (hsender : s.sender? name = some e)
      (h : e.encode s.shared.counters call.packet call.staleness call.now = .ok done) :
      Performs s (.encode name call)
        { s with shared := { s.shared with counters := done.counters }, senders := put s.senders name done.encoder }
        (.sealed done.packet done.parity)
  | noReceiver {name packet} (h : s.receiver? name = none) : Performs s (.decode name packet) s .absent
  | decode {name packet d done} (hreceiver : s.receiver? name = some d)
      (h : d.decode s.shared packet = .ok done) :
      Performs s (.decode name packet)
        { s with
          shared := done.shared
          receivers := put s.receivers name done.decoder
          recovered := s.recovered ++ done.recovered.map some }
        (.recovered (done.recovered.map (·.bytes)))
  | close {name} : Performs s (.close name) (s.drop name) .done
  | giveBack {i} : Performs s (.giveBack i) (s.giveBack i) .done
  | acquire : Performs s .acquire { s with shared := { s.shared with pool := s.shared.pool.acquire.2 } }
      (.buffer s.shared.pool.acquire.1.bytes)
  | release {b} : Performs s (.release b) { s with shared := s.shared.release [b] } .done

theorem performs_of_perform (h : s.perform r = .ok (s', a)) : s.Performs r s' a := by
  unfold perform at h
  split at h
  · obtain ⟨⟨e, pool⟩, hbuild, h⟩ := Checked.bind_eq_ok.1 h
    cases h
    exact .openSender hbuild
  · obtain ⟨d, hbuild, h⟩ := Checked.bind_eq_ok.1 h
    cases h
    exact .openReceiver hbuild
  · split at h
    · rename_i hsender
      cases h
      exact .noSender hsender
    · rename_i e hsender
      obtain ⟨⟨s₁, done⟩, hencode, h⟩ := Checked.bind_eq_ok.1 h
      obtain ⟨done', hdone, hencode⟩ := Checked.bind_eq_ok.1 hencode
      cases hencode
      cases h
      exact .encode hsender hdone
  · split at h
    · rename_i hreceiver
      cases h
      exact .noReceiver hreceiver
    · rename_i d hreceiver
      obtain ⟨⟨s₁, done⟩, hdecode, h⟩ := Checked.bind_eq_ok.1 h
      obtain ⟨done', hdone, hdecode⟩ := Checked.bind_eq_ok.1 hdecode
      cases hdecode
      cases h
      exact .decode hreceiver hdone
  · cases h
    exact .close
  · cases h
    exact .giveBack
  · cases h
    exact .acquire
  · cases h
    exact .release

/-- A request fails, or it does what it can do. -/
theorem next_cases (s : Session) (r : Request) :
    (∃ e, s.perform r = .error e) ∧ s.next r = s ∨ ∃ a, s.Performs r (s.next r) a := by
  unfold next
  cases h : s.perform r with
  | error e => exact .inl ⟨⟨e, rfl⟩, rfl⟩
  | ok done =>
    obtain ⟨s', a⟩ := done
    exact .inr ⟨a, performs_of_perform h⟩

/-! ### Named things -/

section Entries

variable {α : Type} {entries : List (String × α)} {name other : String} {a b : α}

theorem lookup_filter_self (entries : List (String × α)) (name : String) :
    (entries.filter (·.1 ≠ name)).lookup name = none := by
  rw [List.lookup_eq_none_iff]
  intro entry hentry
  have hne : entry.1 ≠ name := by simpa using (List.mem_filter.1 hentry).2
  simpa using hne.symm

theorem lookup_filter_of_ne (h : other ≠ name) :
    (entries.filter (·.1 ≠ name)).lookup other = entries.lookup other := by
  induction entries with
  | nil => rfl
  | cons entry rest ih =>
    obtain ⟨n, x⟩ := entry
    by_cases hn : n = name
    · have hne : (other == n) = false := beq_false_of_ne (hn ▸ h)
      rw [List.filter_cons_of_neg (by simpa using hn), ih, List.lookup_cons, hne]
    · rw [List.filter_cons_of_pos (by simpa using hn), List.lookup_cons, List.lookup_cons, ih]

theorem lookup_put_self (entries : List (String × α)) (name : String) (a : α) :
    (put entries name a).lookup name = some a := List.lookup_cons_self

theorem lookup_put_of_ne (h : other ≠ name) : (put entries name a).lookup other = entries.lookup other := by
  have hne : (other == name) = false := beq_false_of_ne h
  rw [put, List.lookup_cons, hne, lookup_filter_of_ne h]

theorem mem_of_lookup (h : entries.lookup name = some a) : (name, a) ∈ entries := by
  obtain ⟨l₁, l₂, rfl, -⟩ := List.lookup_eq_some_iff.1 h
  exact List.mem_append_right _ (List.mem_cons_self ..)

theorem nodup_filter_names (p : String × α → Bool) (h : (entries.map Prod.fst).Nodup) :
    ((entries.filter p).map Prod.fst).Nodup := h.sublist (List.filter_sublist.map Prod.fst)

theorem nodup_put_names (name : String) (a : α) (h : (entries.map Prod.fst).Nodup) :
    ((put entries name a).map Prod.fst).Nodup := by
  rw [put, List.map_cons, List.nodup_cons]
  refine ⟨?_, nodup_filter_names _ h⟩
  intro hmem
  obtain ⟨entry, hentry, hname⟩ := List.mem_map.1 hmem
  simpa [hname] using (List.mem_filter.1 hentry).2

theorem forall_put {P : α → Prop} (h : ∀ entry ∈ entries, P entry.2) (ha : P a) :
    ∀ entry ∈ put entries name a, P entry.2 := by
  intro entry hentry
  rcases List.mem_cons.1 hentry with rfl | hentry
  · exact ha
  · exact h entry (List.mem_of_mem_filter hentry)

theorem filter_names_eq_self (h : name ∉ entries.map Prod.fst) : entries.filter (·.1 ≠ name) = entries := by
  rw [List.filter_eq_self]
  intro entry hentry
  have hne : entry.1 ≠ name := fun heq => h (heq ▸ List.mem_map_of_mem hentry)
  exact decide_eq_true hne

/-- **A sum over named things** is what the thing of a name gives, if there is one, and what those of the other names
give. -/
theorem sum_split {M : Type} [AddCommMonoid M] (f : α → M) (h : (entries.map Prod.fst).Nodup) (name : String) :
    (entries.map fun entry => f entry.2).sum =
      ((entries.lookup name).map f).getD 0 + ((entries.filter (·.1 ≠ name)).map fun entry => f entry.2).sum := by
  induction entries with
  | nil => exact (zero_add _).symm
  | cons entry rest ih =>
    obtain ⟨n, x⟩ := entry
    rw [List.map_cons, List.nodup_cons] at h
    obtain ⟨hnot, hrest⟩ := h
    by_cases hn : n = name
    · -- no other thing has this name
      subst hn
      rw [List.filter_cons_of_neg (by simp), filter_names_eq_self hnot, List.lookup_cons_self, List.map_cons,
        List.sum_cons]
      rfl
    · rw [List.filter_cons_of_pos (by simpa using hn), List.lookup_cons, beq_false_of_ne (Ne.symm hn), List.map_cons,
        List.map_cons, List.sum_cons, List.sum_cons, ih hrest]
      exact add_left_comm _ _ _

end Entries

/-! ### What all endpoints have in common -/

/-- The buffer size of the pool is `size`, all senders have the property `P`, all receivers have the property `Q`,
and each of them has a name of its own. -/
structure Holds (size : ℕ) (P : Encoder → Prop) (Q : Decoder → Prop) (s : Session) : Prop where
  size_eq : s.shared.pool.bufferSize = size
  senders : ∀ entry ∈ s.senders, P entry.2
  receivers : ∀ entry ∈ s.receivers, Q entry.2
  senderNames : (s.senders.map Prod.fst).Nodup
  receiverNames : (s.receivers.map Prod.fst).Nodup

/-- Properties of a sender and of a receiver that new ones have, and that sealing and taking a packet keep. -/
structure Endures (size : ℕ) (P : Encoder → Prop) (Q : Decoder → Prop) : Prop where
  built : ∀ {plan start} {pool : BufferPool} {e pool'}, pool.bufferSize = size →
    Encoder.build plan start pool = .ok (e, pool') → P e ∧ pool'.bufferSize = size
  sealed : ∀ {e : Encoder} {counters packet staleness now done}, P e →
    e.encode counters packet staleness now = .ok done → P done.encoder
  made : ∀ {plan d}, Decoder.build plan = .ok d → Q d
  taken : ∀ {d : Decoder} {shared packet t}, Q d → d.decode shared packet = .ok t →
    Q t.decoder ∧ t.shared.pool.bufferSize = shared.pool.bufferSize

variable {size : ℕ} {P : Encoder → Prop} {Q : Decoder → Prop}

theorem holds_new (shared : Shared) (P : Encoder → Prop) (Q : Decoder → Prop) :
    Holds shared.pool.bufferSize P Q ⟨shared, [], [], []⟩ := ⟨rfl, nofun, nofun, List.nodup_nil, List.nodup_nil⟩

theorem Holds.sender {name : String} {e : Encoder} (h : s.Holds size P Q) (hs : s.sender? name = some e) : P e :=
  h.senders _ (mem_of_lookup hs)

theorem Holds.receiver {name : String} {d : Decoder} (h : s.Holds size P Q) (hs : s.receiver? name = some d) :
    Q d := h.receivers _ (mem_of_lookup hs)

theorem bufferSize_closeSender (s : Session) (name : String) (pool : BufferPool) :
    (s.closeSender name pool).bufferSize = pool.bufferSize := by
  unfold closeSender
  split
  · exact (BufferPool.exchanges_releaseAll _ _).bufferSize_eq
  · rfl

theorem bufferSize_closeReceiver (s : Session) (name : String) (pool : BufferPool) :
    (s.closeReceiver name pool).bufferSize = pool.bufferSize := by
  unfold closeReceiver
  split
  · exact (BufferPool.exchanges_releaseAll _ _).bufferSize_eq
  · rfl

theorem Holds.performs (hkept : Endures size P Q) (h : s.Holds size P Q) (hs : s.Performs r s' a) :
    s'.Holds size P Q := by
  cases hs with
  | @openSender name plan start e pool hbuild =>
    obtain ⟨he, hpool⟩ := hkept.built h.size_eq hbuild
    exact ⟨(bufferSize_closeSender s name pool).trans hpool, forall_put h.senders he, h.receivers,
      nodup_put_names name e h.senderNames, h.receiverNames⟩
  | @openReceiver name plan d hbuild =>
    exact ⟨(bufferSize_closeReceiver s name _).trans h.size_eq, h.senders, forall_put h.receivers (hkept.made hbuild),
      h.senderNames, nodup_put_names name d h.receiverNames⟩
  | noSender => exact h
  | @encode name call e done hsender hdone =>
    exact ⟨h.size_eq, forall_put h.senders (hkept.sealed (h.sender hsender) hdone), h.receivers,
      nodup_put_names name _ h.senderNames, h.receiverNames⟩
  | noReceiver => exact h
  | @decode name packet d done hreceiver hdone =>
    obtain ⟨hd, hpool⟩ := hkept.taken (h.receiver hreceiver) hdone
    exact ⟨hpool.trans h.size_eq, h.senders, forall_put h.receivers hd, h.senderNames,
      nodup_put_names name _ h.receiverNames⟩
  | @close name =>
    exact ⟨((bufferSize_closeReceiver s name _).trans (bufferSize_closeSender s name _)).trans h.size_eq,
      fun entry hentry => h.senders entry (List.mem_of_mem_filter hentry),
      fun entry hentry => h.receivers entry (List.mem_of_mem_filter hentry),
      nodup_filter_names _ h.senderNames, nodup_filter_names _ h.receiverNames⟩
  | @giveBack i =>
    unfold Session.giveBack
    split
    · exact ⟨(BufferPool.exchanges_releaseAll _ _).bufferSize_eq.trans h.size_eq, h.senders, h.receivers, h.senderNames,
        h.receiverNames⟩
    · exact h
  | acquire =>
    exact ⟨(BufferPool.bufferSize_acquire _).trans h.size_eq, h.senders, h.receivers, h.senderNames, h.receiverNames⟩
  | release =>
    exact ⟨(BufferPool.exchanges_releaseAll _ _).bufferSize_eq.trans h.size_eq, h.senders, h.receivers, h.senderNames,
      h.receiverNames⟩

theorem Holds.next (hkept : Endures size P Q) (h : s.Holds size P Q) (r : Request) : (s.next r).Holds size P Q := by
  rcases next_cases s r with ⟨-, heq⟩ | ⟨a, hs⟩
  · rwa [heq]
  · exact h.performs hkept hs

/-- **What every request keeps holds behind any requests.** -/
theorem Holds.after (hkept : Endures size P Q) (h : s.Holds size P Q) (requests : List Request) :
    (s.after requests).Holds size P Q := by
  induction requests generalizing s with
  | nil => exact h
  | cons r rest ih => exact ih (h.next hkept r)

/-- **Every sender follows its calls, and the sets of every receiver fit its geometry.** -/
theorem endures_sound (size : ℕ) : Endures size (Encoder.Running size) Decoder.Sound where
  built hsize h := by
    obtain ⟨hrunning, hpool⟩ := Encoder.build_spec h
    exact ⟨hsize ▸ hrunning, hpool.bufferSize_eq.trans hsize⟩
  sealed h hs := (h.encode hs).1
  made h := by
    obtain ⟨g, hg, rfl⟩ := Decoder.build_spec h
    exact ⟨hg, nofun⟩
  taken h ht := ⟨(Decoder.decode_takes h ht).sound h, (Decoder.decode_exchanges ht).bufferSize_eq⟩

end Session

end PacketFec
