import PacketFec.Error
import PacketFec.Hex
import PacketFec.Limits
import PacketFec.Number.Decimal

/-!
# Failures of the commands

A command that fails says in which step it did, and the step may have a cause below it. The text of a
failure is the context of the step, followed by the message of the cause.

* `Failure.context`: what the step was.
* `Failure.message`: the context and the cause.
-/

namespace PacketFec

/-- Why a command failed. -/
inductive Failure where
  /-- The geometry that places a packet is invalid. -/
  | invalidGeometry (cause : Error)
  /-- A packet is not written in hexadecimal digits. -/
  | notHex (cause : Hex.Flaw)
  /-- A packet has no bytes. -/
  | emptyPacket
  /-- A packet does not start with a shard header. -/
  | badHeader (cause : Error)
  /-- A configuration file cannot be read as text. -/
  | unreadable (path : String)
  /-- A configuration file holds no configuration. -/
  | notConfiguration (path : String)
  /-- A configuration file holds an invalid configuration. -/
  | invalidConfiguration (path : String) (cause : Error)
  /-- A loss rate is no probability. -/
  | lossOutOfRange (loss : Binary64)
  /-- A payload size is zero or does not fit into a packet. -/
  | payloadOutOfRange
  /-- The sender of a simulation cannot be built. -/
  | senderRefused (cause : Error)
  /-- The receiver of a simulation cannot be built. -/
  | receiverRefused (cause : Error)
  /-- A packet of a simulation cannot be sealed. -/
  | packetRefused (cause : Error)
  /-- A report cannot be written. -/
  | unwritable (path : String)
  /-- The program meets a fault. -/
  | fault (cause : Error)

namespace Failure

/-- The failure of a step by an error: a fault is a fault in any step. -/
def of (step : Error → Failure) (e : Error) : Failure := if e.IsFault then fault e else step e

/-- The outcome of a step, with its error put into the step's failure. -/
def lift {α : Type} (step : Error → Failure) : Except Error α → Except Failure α
  | .ok a => .ok a
  | .error e => .error (of step e)

/-- What the failed step was. -/
def context : Failure → String
  | invalidGeometry _ => "Invalid geometry"
  | notHex _ => "Packet is not valid hex"
  | emptyPacket => "Packet is empty"
  | badHeader _ => "Failed to parse shard header"
  | unreadable path => s!"Failed to read config file: {path}"
  | notConfiguration path => s!"Failed to parse config file: {path}"
  | invalidConfiguration path _ => s!"Invalid configuration in {path}"
  | lossOutOfRange loss => "Loss must be between 0.0 and 1.0, got " ++ loss.plain
  | payloadOutOfRange => s!"Payload size must be between 1 and {mtuLimit - framingSize} bytes"
  | senderRefused _ => "Failed to build encoder"
  | receiverRefused _ => "Failed to build decoder"
  | packetRefused _ => "Failed to encode packet"
  | unwritable path => s!"Failed to write report: {path}"
  | fault cause => cause.message

/-- The error below a failed step. -/
def cause? : Failure → Option Error
  | invalidGeometry e | badHeader e | invalidConfiguration _ e | senderRefused e | receiverRefused e
  | packetRefused e | fault e => some e
  | _ => none

/-- The message of what lies below a failed step. -/
def causeMessage? : Failure → Option String
  | notHex flaw => some flaw.message
  | fault _ => none
  | f => f.cause?.map Error.message

/-- The whole text of a failure. -/
def message (f : Failure) : String :=
  match f.causeMessage? with
  | some below => f.context ++ ": " ++ below
  | none => f.context

end Failure

end PacketFec
