import PacketFec.Bytes
import PacketFec.Limits

/-!
# A pool of packet buffers

Senders and receivers of one process take their buffers from a shared pool and hand them back to it. The
pool keeps idle buffers on a stack, at most `retention` of them, and makes a new buffer when the stack is
empty. A buffer has a capacity beside its bytes; it never shrinks, and a buffer whose capacity is below the
pool's buffer size is not worth keeping.

* `BufferPool.bytes_acquire`: what the pool hands out is all zero, whatever the buffer held before.
-/

namespace PacketFec

/-- Bytes in a piece of memory that can hold `capacity` of them without growing. -/
structure Buffer where
  /-- The content. -/
  bytes : Bytes
  /-- Bytes that fit. -/
  capacity : Nat

namespace Buffer

/-- A buffer without memory. -/
def empty : Buffer := ⟨[], 0⟩

/-- The buffer with its content replaced; it grows where the content does not fit. -/
def hold (b : Buffer) (bytes : Bytes) : Buffer := ⟨bytes, max b.capacity bytes.length⟩

/-- The buffer cut or filled up to `n` bytes. -/
def resize (b : Buffer) (n : Nat) (fill : UInt8) : Buffer := b.hold (b.bytes.resize n fill)

end Buffer

/-- Idle buffers of one size. -/
structure BufferPool where
  /-- Bytes in each buffer that the pool hands out. -/
  bufferSize : Nat
  /-- Idle buffers that the pool keeps at most. -/
  retention : Nat
  /-- The idle buffers, the latest one first. -/
  free : List Buffer
  /-- Buffers that the pool has made. -/
  made : Nat

namespace BufferPool

/-- A pool without idle buffers. -/
def create (bufferSize retention : Nat) : BufferPool := ⟨bufferSize, retention, [], 0⟩

/-- The pool of packet-sized buffers. -/
def standard : BufferPool := create mtuLimit defaultRetention

/-- Idle buffers in the pool. -/
def available (p : BufferPool) : Nat := p.free.length

/-- Take a buffer of zeros: the latest idle one, cleared, or a new one. -/
def acquire (p : BufferPool) : Buffer × BufferPool :=
  match p.free with
  | b :: free => ((b.hold []).resize p.bufferSize 0, { p with free })
  | [] => (⟨Bytes.zeros p.bufferSize, p.bufferSize⟩, { p with made := p.made + 1 })

/-- Take `n` buffers. -/
def acquireMany (p : BufferPool) : Nat → List Buffer × BufferPool
  | 0 => ([], p)
  | n + 1 =>
    let (b, p) := p.acquire
    let (bs, p) := p.acquireMany n
    (b :: bs, p)

/-- Hand a buffer back. It is dropped where it is too small or the pool keeps enough. -/
def release (p : BufferPool) (b : Buffer) : BufferPool :=
  if b.capacity < p.bufferSize then p
  else if p.free.length < p.retention then { p with free := b :: p.free }
  else p

/-- Hand several buffers back, the first one first. -/
def releaseAll (p : BufferPool) (bs : List Buffer) : BufferPool := bs.foldl release p

/-- **Every buffer that the pool hands out is all zero.** -/
theorem bytes_acquire (p : BufferPool) : p.acquire.1.bytes = Bytes.zeros p.bufferSize := by
  unfold acquire
  split <;> simp [Buffer.hold, Buffer.resize, Bytes.resize, Bytes.zeros]

@[simp] theorem length_bytes_acquire (p : BufferPool) : p.acquire.1.bytes.length = p.bufferSize := by
  rw [bytes_acquire, Bytes.length_zeros]

@[simp] theorem bufferSize_acquire (p : BufferPool) : p.acquire.2.bufferSize = p.bufferSize := by
  unfold acquire
  split <;> rfl

@[simp] theorem length_acquireMany (p : BufferPool) (n : Nat) : (p.acquireMany n).1.length = n := by
  induction n generalizing p with
  | zero => rfl
  | succ n ih => simp [acquireMany, ih]

theorem length_bytes_acquireMany {p : BufferPool} {n : Nat} {b : Buffer} (h : b ∈ (p.acquireMany n).1) :
    b.bytes.length = p.bufferSize := by
  induction n generalizing p with
  | zero => cases h
  | succ n ih =>
    rcases List.mem_cons.1 h with rfl | h
    · exact length_bytes_acquire p
    · exact (ih h).trans (bufferSize_acquire p)

end BufferPool

end PacketFec
