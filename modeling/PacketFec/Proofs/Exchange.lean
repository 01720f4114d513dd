import Mathlib
import PacketFec.BufferPool

/-!
# Buffers taken from a pool and handed back

All that is ever done with a pool is to take buffers from it and to hand buffers back. What the pool keeps stays
within its bounds whatever is handed back. As long as the pool has made no more buffers than it may keep, it loses
none: what is idle and what is out are together what it has made.

* `BufferPool.Tidy`: idle buffers are within the bound of the pool, and large enough.
* `BufferPool.Lent`: how many buffers are out.
* `BufferPool.Exchanges`: **an account of some steps**: which buffers went in, and which came out. Accounts are put
  together by `Exchanges.trans` and leave all other buffers alone by `Exchanges.frame`.
* `BufferPool.exchanges_acquireMany`, `BufferPool.exchanges_releaseAll`: the accounts of the steps of a pool.
* `BufferPool.available_releaseAll`: **how many buffers are idle** behind handing some back.
* `BufferPool.map_bytes_acquireMany`: what the buffers hold that a pool hands out.
-/

namespace PacketFec

namespace Buffer

/-- A buffer that holds `size` bytes without growing. -/
def Roomy (size : ℕ) (b : Buffer) : Prop := size ≤ b.capacity

theorem not_roomy_empty {size : ℕ} (h : 1 ≤ size) : ¬ empty.Roomy size := Nat.not_le.2 h

end Buffer

namespace BufferPool

variable {p : BufferPool} {b : Buffer} {n out : ℕ}

/-! ### One buffer -/

theorem roomy_acquire (p : BufferPool) : p.acquire.1.Roomy p.bufferSize := by
  unfold acquire
  split
  · exact le_trans (Bytes.length_resize _ _ _).ge (le_max_right _ _)
  · exact le_rfl

theorem retention_acquire (p : BufferPool) : p.acquire.2.retention = p.retention := by
  unfold acquire
  split <;> rfl

theorem made_le_acquire (p : BufferPool) : p.made ≤ p.acquire.2.made := by
  unfold acquire
  split
  · exact le_rfl
  · exact Nat.le_succ _

/-- Handing a buffer back changes nothing but the idle buffers. -/
theorem release_cases (p : BufferPool) (b : Buffer) :
    p.release b = p ∨ b.Roomy p.bufferSize ∧ p.available < p.retention ∧
      p.release b = { p with free := b :: p.free } := by
  unfold release
  split
  · exact .inl rfl
  · rename_i hroomy
    split
    · rename_i hroom
      exact .inr ⟨Nat.not_lt.1 hroomy, hroom, rfl⟩
    · exact .inl rfl

theorem sizes_release (p : BufferPool) (b : Buffer) : (p.release b).bufferSize = p.bufferSize ∧
    (p.release b).retention = p.retention ∧ (p.release b).made = p.made := by
  rcases release_cases p b with h | ⟨-, -, h⟩ <;> rw [h] <;> exact ⟨rfl, rfl, rfl⟩

/-- A buffer that is large enough is kept where there is room. -/
theorem available_release (hb : b.Roomy p.bufferSize) :
    (p.release b).available = max p.available (min p.retention (p.available + 1)) := by
  have hlen : p.free.length = p.available := rfl
  rw [BufferPool.release, if_neg (Nat.not_lt.2 hb)]
  split
  · show p.available + 1 = _
    omega
  · omega

/-- A pool keeps no more idle buffers than it may, and each of them has room for what the pool hands out. -/
structure Tidy (p : BufferPool) : Prop where
  within : p.available ≤ p.retention
  roomy : ∀ b ∈ p.free, b.Roomy p.bufferSize

theorem tidy_create (bufferSize retention : ℕ) : (create bufferSize retention).Tidy := ⟨Nat.zero_le _, nofun⟩

theorem Tidy.acquire (h : p.Tidy) : p.acquire.2.Tidy := by
  unfold BufferPool.acquire
  split
  · rename_i b free hfree
    have hwithin := h.within
    rw [available, hfree, List.length_cons] at hwithin
    exact ⟨Nat.le_of_succ_le hwithin, fun c hc => h.roomy c (hfree ▸ List.mem_cons_of_mem _ hc)⟩
  · exact ⟨h.within, h.roomy⟩

theorem Tidy.release (h : p.Tidy) (b : Buffer) : (p.release b).Tidy := by
  rcases release_cases p b with heq | ⟨hroomy, hroom, heq⟩
  · rwa [heq]
  · rw [heq]
    refine ⟨hroom, fun c hc => ?_⟩
    rcases List.mem_cons.1 hc with rfl | hc
    · exact hroomy
    · exact h.roomy c hc

/-- `out` buffers of the pool are out. Once the pool has made more than it may keep, nothing is said: it drops
some of those that come back. -/
def Lent (p : BufferPool) (out : ℕ) : Prop := p.made ≤ p.retention → p.available + out = p.made

theorem lent_create (bufferSize retention : ℕ) : (create bufferSize retention).Lent 0 := fun _ => rfl

theorem Lent.acquire (h : p.Lent out) : p.acquire.2.Lent (out + 1) := by
  intro hmade
  have hle := (made_le_acquire p).trans (hmade.trans (retention_acquire p).le)
  have hbalance := h hle
  unfold BufferPool.acquire
  unfold available at hbalance
  split
  · rename_i b free hfree
    rw [hfree, List.length_cons] at hbalance
    show free.length + (out + 1) = p.made
    omega
  · rename_i hfree
    rw [hfree, List.length_nil] at hbalance
    show p.free.length + (out + 1) = p.made + 1
    rw [hfree, List.length_nil]
    omega

/-- A buffer of the pool comes back. There is room for it, since it is not among the idle ones yet. -/
theorem Lent.release (h : p.Lent (out + 1)) (hb : b.Roomy p.bufferSize) : (p.release b).Lent out := by
  obtain ⟨-, hretention, hmade⟩ := sizes_release p b
  intro hle
  rw [hretention, hmade] at hle
  -- idle and out are all that was made, so the idle ones alone are fewer than the pool may keep
  have hbalance := h hle
  rw [hmade, available_release hb]
  omega

/-- A buffer that is too small is none of the pool's. -/
theorem release_of_not_roomy (hb : ¬ b.Roomy p.bufferSize) : p.release b = p := if_pos (Nat.not_le.1 hb)

/-! ### Accounts -/

/-- The account of some steps: who held the buffers `held` and the pool `p` before them holds `held'` and the pool
`p'` behind them. Buffers without memory are on no account, so a pool must not take them for its own. -/
structure Exchanges (p : BufferPool) (held : Multiset Buffer) (p' : BufferPool) (held' : Multiset Buffer) :
    Prop where
  bufferSize_eq : p'.bufferSize = p.bufferSize
  retention_eq : p'.retention = p.retention
  made_le : p.made ≤ p'.made
  tidy : p.Tidy → p'.Tidy
  roomy : (∀ b ∈ held, b.Roomy p.bufferSize) → ∀ b ∈ held', b.Roomy p.bufferSize
  lent : 1 ≤ p.bufferSize → (∀ b ∈ held, b.Roomy p.bufferSize) → ∀ out, p.Lent (out + held.card) →
    p'.Lent (out + held'.card)

variable {p₁ p₂ p₃ : BufferPool} {held₁ held₂ held₃ : Multiset Buffer}

theorem Exchanges.refl (p : BufferPool) (held : Multiset Buffer) : p.Exchanges held p held :=
  ⟨rfl, rfl, le_rfl, id, id, fun _ _ _ h => h⟩

/-- One account after the other. -/
theorem Exchanges.trans (h : p₁.Exchanges held₁ p₂ held₂) (h' : p₂.Exchanges held₂ p₃ held₃) :
    p₁.Exchanges held₁ p₃ held₃ where
  bufferSize_eq := h'.bufferSize_eq.trans h.bufferSize_eq
  retention_eq := h'.retention_eq.trans h.retention_eq
  made_le := h.made_le.trans h'.made_le
  tidy htidy := h'.tidy (h.tidy htidy)
  roomy hroomy := h.bufferSize_eq ▸ h'.roomy (h.bufferSize_eq ▸ h.roomy hroomy)
  lent hsize hroomy out hlent := by
    apply h'.lent
    · rwa [h.bufferSize_eq]
    · rw [h.bufferSize_eq]
      exact h.roomy hroomy
    · exact h.lent hsize hroomy out hlent

/-- Other buffers do not matter. -/
theorem Exchanges.frame (h : p₁.Exchanges held₁ p₂ held₂) (other : Multiset Buffer) :
    p₁.Exchanges (held₁ + other) p₂ (held₂ + other) where
  bufferSize_eq := h.bufferSize_eq
  retention_eq := h.retention_eq
  made_le := h.made_le
  tidy := h.tidy
  roomy hroomy b hb := by
    rcases Multiset.mem_add.1 hb with hb | hb
    · exact h.roomy (fun c hc => hroomy c (Multiset.mem_add.2 (.inl hc))) b hb
    · exact hroomy b (Multiset.mem_add.2 (.inr hb))
  lent hsize hroomy out hlent := by
    rw [Multiset.card_add, Nat.add_comm held₁.card, ← Nat.add_assoc] at hlent
    rw [Multiset.card_add, Nat.add_comm held₂.card, ← Nat.add_assoc]
    exact h.lent hsize (fun c hc => hroomy c (Multiset.mem_add.2 (.inl hc))) _ hlent

/-- Buffers that are written to, and may grow then, stay on the account. -/
theorem exchanges_of_grown (p : BufferPool) {held held' : List Buffer}
    (h : List.Forall₂ (fun b c => b.capacity ≤ c.capacity) held held') : p.Exchanges ↑held p ↑held' where
  bufferSize_eq := rfl
  retention_eq := rfl
  made_le := le_rfl
  tidy := id
  roomy hroomy := by
    induction h with
    | nil => exact hroomy
    | @cons b c rest rest' hle _ ih =>
      intro x hx
      rcases List.mem_cons.1 hx with rfl | hx
      · exact le_trans (hroomy b (List.mem_cons_self ..)) hle
      · exact ih (fun y hy => hroomy y (List.mem_cons_of_mem _ hy)) x hx
  lent _ _ out hlent := by
    rw [Multiset.coe_card] at hlent ⊢
    rwa [← h.length_eq]

theorem exchanges_acquire (p : BufferPool) : p.Exchanges 0 p.acquire.2 {p.acquire.1} where
  bufferSize_eq := bufferSize_acquire p
  retention_eq := retention_acquire p
  made_le := made_le_acquire p
  tidy h := h.acquire
  roomy _ b hb := by
    rw [Multiset.mem_singleton.1 hb]
    exact roomy_acquire p
  lent _ _ _ h := Lent.acquire h

theorem exchanges_release (p : BufferPool) (b : Buffer) : p.Exchanges {b} (p.release b) 0 where
  bufferSize_eq := (sizes_release p b).1
  retention_eq := (sizes_release p b).2.1
  made_le := (sizes_release p b).2.2.ge
  tidy h := h.release b
  roomy _ c hc := absurd hc (Multiset.notMem_zero c)
  lent _ hroomy _ h := Lent.release h (hroomy b (Multiset.mem_singleton_self b))

theorem exchanges_release_empty (p : BufferPool) : p.Exchanges 0 (p.release .empty) 0 where
  bufferSize_eq := (sizes_release p _).1
  retention_eq := (sizes_release p _).2.1
  made_le := (sizes_release p _).2.2.ge
  tidy h := h.release _
  roomy _ c hc := absurd hc (Multiset.notMem_zero c)
  lent hsize _ _ h := by rwa [release_of_not_roomy (Buffer.not_roomy_empty hsize)]

/-- **Taking some buffers.** -/
theorem exchanges_acquireMany (p : BufferPool) (n : ℕ) :
    p.Exchanges 0 (p.acquireMany n).2 ↑(p.acquireMany n).1 := by
  induction n generalizing p with
  | zero => exact .refl p 0
  | succ n ih =>
    have hrest := (ih p.acquire.2).frame {p.acquire.1}
    rw [zero_add, add_comm, Multiset.singleton_add] at hrest
    exact (exchanges_acquire p).trans hrest

/-- **Handing some buffers back.** -/
theorem exchanges_releaseAll (p : BufferPool) (bs : List Buffer) : p.Exchanges ↑bs (p.releaseAll bs) 0 := by
  induction bs generalizing p with
  | nil => exact .refl p 0
  | cons b rest ih =>
    have hfirst := (exchanges_release p b).frame ↑rest
    rw [zero_add, Multiset.singleton_add] at hfirst
    exact hfirst.trans (ih (p.release b))

/-- **How many buffers are idle behind handing some back.** The pool keeps what it has had, and of these buffers those
that are large enough, up to what it may keep. -/
theorem available_releaseAll (p : BufferPool) (bs : List Buffer) : (p.releaseAll bs).available =
    max p.available (min p.retention (p.available + bs.countP fun b => p.bufferSize ≤ b.capacity)) := by
  induction bs generalizing p with
  | nil =>
    show p.available = max p.available (min p.retention p.available)
    omega
  | cons b rest ih =>
    obtain ⟨hsize, hretention, -⟩ := sizes_release p b
    rw [show p.releaseAll (b :: rest) = (p.release b).releaseAll rest from rfl, ih, hsize, hretention, List.countP_cons]
    by_cases hroomy : b.Roomy p.bufferSize
    · have hcounted : p.bufferSize ≤ b.capacity := hroomy
      rw [if_pos (decide_eq_true hcounted), available_release hroomy]
      omega
    · have hdropped : ¬ p.bufferSize ≤ b.capacity := hroomy
      rw [if_neg (by simpa using hdropped), release_of_not_roomy hroomy]
      omega

theorem exchanges_releaseAll_empty (p : BufferPool) (n : ℕ) :
    p.Exchanges 0 (p.releaseAll (List.replicate n .empty)) 0 := by
  induction n generalizing p with
  | zero => exact .refl p 0
  | succ n ih => exact (exchanges_release_empty p).trans (ih (p.release .empty))

/-! ### What is handed out -/

/-- All buffers that a pool hands out are alike. -/
theorem map_bytes_acquireMany (p : BufferPool) (n : ℕ) :
    (p.acquireMany n).1.map (·.bytes) = List.replicate n (Bytes.zeros p.bufferSize) := by
  induction n generalizing p with
  | zero => rfl
  | succ n ih =>
    have hrest := ih p.acquire.2
    rw [bufferSize_acquire] at hrest
    rw [List.replicate_succ, ← hrest, ← bytes_acquire]
    rfl

end BufferPool

end PacketFec
