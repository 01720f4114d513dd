import PacketFec.Decoder

/-!
# Checks on arbitrary bytes

Three parts of the library are exposed to bytes of unknown origin: the receiver, the pulse log and the
header reader. Each check feeds them a byte string and says whether the result is sound.

* `Robustness.receives`: a receiver takes the packets in a byte string without a fault.
* `Robustness.periodsSound`: periods found by the pulse log can be counts of a geometry.
* `Robustness.headerSound`: a header that is read back writes the bytes it was read from.
-/

namespace PacketFec.Robustness

/-- The packets in a byte string: each is preceded by a byte with its length, and the last one may be cut
short. -/
def packets : Bytes → List Bytes
  | [] => []
  | n :: rest => rest.take n.toNat :: packets (rest.drop n.toNat)
termination_by bs => bs.length
decreasing_by simp only [List.length_drop, List.length_cons]; omega

/-- Feed packets to a receiver. -/
def feed (d : Decoder) (shared : Shared) : List Bytes → Except Error Unit
  | [] => .ok ()
  | packet :: rest => do
    let done ← d.decode shared packet
    feed done.decoder done.shared rest

/-- Whether a receiver takes the packets in a byte string without a fault. -/
def receives (bs : Bytes) : Bool :=
  match Decoder.create ⟨4, 2⟩ with
  | .error _ => true
  | .ok d =>
    match feed d ⟨.standard, .zero⟩ (packets bs) with
    | .ok () => true
    | .error _ => false

/-- The pulse log after the pulses in a byte string: five bytes each, of which the first says in its lowest
bit whether it is data and the others hold the sequence id. What is left at the end is ignored. -/
def pulses (log : PulseLog) : Bytes → PulseLog
  | kind :: b0 :: b1 :: b2 :: b3 :: rest =>
    pulses (log.sample (kind &&& 1 = 1) (UInt32.ofNat (Bytes.ofLittle [b0, b1, b2, b3]))) rest
  | _ => log

/-- Whether a period, if one was found, can be a count of a geometry. -/
def periodSound : Option Nat → Bool
  | some n => 0 < n && n < maxPeriod
  | none => true

/-- Whether the periods found after the pulses in a byte string can be counts of a geometry. -/
def periodsSound (bs : Bytes) : Bool :=
  let log := pulses .empty bs
  periodSound (log.findPeriod true) && periodSound (log.findPeriod false)

/-- Whether a header read off a byte string, if there is one, writes the same bytes. -/
def headerSound (bs : Bytes) : Bool :=
  match Header.read bs with
  | .error _ => true
  | .ok h =>
    match h.write (Bytes.zeros headerSize) with
    | .ok written => written = bs.take headerSize
    | .error _ => true

end PacketFec.Robustness
