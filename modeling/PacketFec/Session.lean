import PacketFec.Decoder
import PacketFec.Encoder

/-!
# Sessions

A session is a set of named senders and receivers that share one pool and one set of counters, together
with the recovered buffers that its user holds and has not handed back yet.

Every command either gives a new session or fails. A refused command leaves the session as it was, and a
fault ends it.
-/

namespace PacketFec

/-- Named endpoints over shared resources. -/
structure Session where
  /-- The pool and the counters. -/
  shared : Shared
  /-- The senders by name. -/
  senders : List (String × Encoder)
  /-- The receivers by name. -/
  receivers : List (String × Decoder)
  /-- The recovered buffers, in the order in which they were given out; `none` once handed back. -/
  recovered : List (Option Buffer)

namespace Session

/-- A session without endpoints. -/
def create (pool : BufferPool) : Session := ⟨⟨pool, .zero⟩, [], [], []⟩

/-- The sender of a name. -/
def sender? (s : Session) (name : String) : Option Encoder := s.senders.lookup name

/-- The receiver of a name. -/
def receiver? (s : Session) (name : String) : Option Decoder := s.receivers.lookup name

/-- Named things with one of them replaced, or added. -/
def put {α : Type} (entries : List (String × α)) (name : String) (a : α) : List (String × α) :=
  (name, a) :: entries.filter (·.1 ≠ name)

/-- The pool after the sender of a name is closed. -/
def closeSender (s : Session) (name : String) (pool : BufferPool) : BufferPool :=
  match s.sender? name with
  | some e => e.close pool
  | none => pool

/-- The pool after the receiver of a name is closed. -/
def closeReceiver (s : Session) (name : String) (pool : BufferPool) : BufferPool :=
  match s.receiver? name with
  | some d => d.close pool
  | none => pool

/-- Add a sender that has taken its buffers from the pool. An older one of its name is closed afterwards. -/
def addSender (s : Session) (name : String) (e : Encoder) (pool : BufferPool) : Session :=
  { s with
    shared := { s.shared with pool := s.closeSender name pool }
    senders := put s.senders name e }

/-- Add a receiver. An older one of its name is closed. -/
def addReceiver (s : Session) (name : String) (d : Decoder) : Session :=
  { s with
    shared := { s.shared with pool := s.closeReceiver name s.shared.pool }
    receivers := put s.receivers name d }

/-- Close the sender and the receiver of a name. -/
def drop (s : Session) (name : String) : Session :=
  { s with
    shared := { s.shared with pool := s.closeReceiver name (s.closeSender name s.shared.pool) }
    senders := s.senders.filter (·.1 ≠ name)
    receivers := s.receivers.filter (·.1 ≠ name) }

/-- Seal a packet with a sender. -/
def encode (s : Session) (name : String) (e : Encoder) (packet : Bytes) (staleness now : Nat) :
    Except Error (Session × Sealed) := do
  let done ← e.encode s.shared.counters packet staleness now
  return ({ s with
    shared := { s.shared with counters := done.counters }
    senders := put s.senders name done.encoder }, done)

/-- Take a packet with a receiver. What it recovers joins the buffers held by the user. -/
def decode (s : Session) (name : String) (d : Decoder) (packet : Bytes) :
    Except Error (Session × Decoded) := do
  let done ← d.decode s.shared packet
  return ({ s with
    shared := done.shared
    receivers := put s.receivers name done.decoder
    recovered := s.recovered ++ done.recovered.map some }, done)

/-- Hand a recovered buffer back to the pool. Nothing happens where that was done before. -/
def giveBack (s : Session) (i : Nat) : Session :=
  match s.recovered[i]? with
  | some (some b) =>
    { s with shared := s.shared.release [b], recovered := s.recovered.set i none }
  | _ => s

/-- Set all counters to zero. -/
def resetCounters (s : Session) : Session := { s with shared := { s.shared with counters := .zero } }

end Session

end PacketFec
