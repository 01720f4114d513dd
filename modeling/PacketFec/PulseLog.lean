import PacketFec.Limits
import PacketFec.Serial

/-!
# The pulse log

A receiver that assumes the wrong geometry learns the right one from the traffic itself. It notes for each
shard whether it was data, in a window of 256 slots that the sequence id indexes. A sender with geometry
`(D, P)` produces runs of `D` data pulses followed by `P` parity pulses, so the length of a run that is seen
from its first pulse to the one behind its last reveals a count.

The *anchor* is the sequence id in slot 0. A pulse behind the anchor is ignored, and one further ahead than
the window clears the log, so that a lost shard at the edge of a window cannot freeze it.

* `PulseLog.sample`: take note of a shard.
* `PulseLog.findPeriod`: the length of the first complete run of a kind.
-/

namespace PacketFec

/-- A shard as the log sees it. -/
structure Pulse where
  /-- Whether the shard was data. -/
  bit : Bool
  /-- Its sequence id. -/
  seq : UInt32
  deriving DecidableEq

/-- The latest pulses, by sequence id modulo the window. -/
structure PulseLog where
  /-- The slots of the window. -/
  pulses : Vector Pulse pulseWindow
  /-- Whether a pulse has been noted. -/
  anchored : Bool

namespace PulseLog

/-- The log before the first pulse. -/
def empty : PulseLog := ⟨.replicate pulseWindow ⟨false, 0⟩, false⟩

/-- The pulse in the slot of a sequence id. -/
def pulseAt (log : PulseLog) (seq : UInt32) : Pulse :=
  log.pulses.get ⟨seq.toNat % pulseWindow, Nat.mod_lt _ (by decide)⟩

/-- The sequence id in slot 0. -/
def anchor (log : PulseLog) : UInt32 := (log.pulseAt 0).seq

/-- The last multiple of the window at or below a sequence id. -/
def windowBase (seq : UInt32) : UInt32 :=
  UInt32.ofNat (seq.toNat - seq.toNat % pulseWindow)

/-- The log with every slot cleared to the start of the window that holds a sequence id. -/
def reanchor (seq : UInt32) : PulseLog := ⟨.replicate pulseWindow ⟨false, windowBase seq⟩, true⟩

/-- The log with a pulse written into its slot. -/
def write (log : PulseLog) (p : Pulse) : PulseLog :=
  { log with pulses := log.pulses.set (p.seq.toNat % pulseWindow) p (Nat.mod_lt _ (by decide)) }

/-- Take note of a pulse. -/
def sample (log : PulseLog) (bit : Bool) (seq : UInt32) : PulseLog :=
  let ahead := Serial.seqDistance seq log.anchor
  if !log.anchored || ahead > pulseWindow then (reanchor seq).write ⟨bit, seq⟩
  else if ahead < 0 then log
  else log.write ⟨bit, seq⟩

/-- The first pulse of the kind behind one that is not, and the pulses after it. -/
def fromEdge (bit : Bool) : Pulse → List Pulse → Option (Pulse × List Pulse)
  | _, [] => none
  | last, p :: rest =>
    if last.bit ≠ bit ∧ p.bit = bit then some (p, rest) else fromEdge bit p rest

/-- Pulses from `last` to the end of its run. The sequence ids must follow one another up to the pulse
behind the run, and that pulse must be there. -/
def runLength (bit : Bool) : Pulse → List Pulse → Option Nat
  | _, [] => none
  | last, p :: rest =>
    if last.seq + 1 ≠ p.seq then none
    else if p.bit ≠ bit then some 1
    else (runLength bit p rest).map (· + 1)

/-- The length of the first run of a kind in the window, if both its edges are there. -/
def findPeriod (log : PulseLog) (bit : Bool) : Option Nat :=
  match log.pulses.toList with
  | [] => none
  | first :: rest =>
    match fromEdge bit first rest with
    | some (left, after) => runLength bit left after
    | none => none

end PulseLog

end PacketFec
