import PacketFec.CommandLine.Options
import PacketFec.Config
import PacketFec.Simulation

/-!
# The commands of the program

`simulate` runs a session over a lossy channel, `inspect` describes one shard, and `config` shows a session
configuration. A switch for detail may stand in front of the command or behind it.

* `Command.parse`: the command that the arguments of the program ask for.
-/

namespace PacketFec

/-- What the program is asked to do. -/
inductive Command where
  /-- Run a simulation, and write its report to a file where one is named. -/
  | simulate (request : SimulationRequest) (report : Option String)
  /-- Describe the shard in a hexadecimal text. -/
  | inspect (packet : String) (geometry : Geometry)
  /-- Show the configuration in a file, or the standard one. -/
  | config (input : Option String)

namespace Command

open CommandLine

/-- A 64-bit count in decimal digits, behind a plus sign if there is one. -/
def count? (s : String) : Option Nat :=
  let ds := match s.toList with
    | '+' :: rest => rest
    | ds => ds
  if ds.isEmpty ∨ ¬ ds.all Char.isDigit then none
  else
    let n := Binary64.ofDigits ds
    if n < wordLimit then some n else none

/-- An option without a value. -/
def switch (long : String) (short : Option Char) : OptionSpec := ⟨long, short, none⟩

/-- An option with a count. -/
def countOption (long : String) (short : Option Char) : OptionSpec :=
  ⟨long, short, some fun s => (count? s).isSome⟩

/-- An option with any text. -/
def textOption (long : String) (short : Option Char) : OptionSpec := ⟨long, short, some fun _ => true⟩

/-- The switch for detail. -/
def verbose : OptionSpec := switch "verbose" (some 'v')

/-- The request for help. -/
def help : OptionSpec × Stop := (switch "help" (some 'h'), .help)

/-- The options of a geometry. -/
def geometryOptions : List OptionSpec :=
  [countOption "data-shards" (some 'd'), countOption "parity-shards" (some 'p')]

/-- What may stand in front of the command. -/
def programGrammar : Grammar :=
  ⟨[verbose], [help, (switch "version" (some 'V'), .version)], none⟩

/-- The arguments of `simulate`. -/
def simulateGrammar : Grammar :=
  ⟨verbose :: geometryOptions ++
    [countOption "decoder-data-shards" none, countOption "decoder-parity-shards" none,
      countOption "packets" (some 'n'),
      ⟨"loss", some 'l', some fun s => (Binary64.ofText? s).isSome⟩,
      countOption "payload-size" none, countOption "seed" none,
      textOption "report" (some 'r'), switch "progress" none],
    [help], some 0⟩

/-- The arguments of `inspect`. -/
def inspectGrammar : Grammar := ⟨verbose :: geometryOptions, [help], some 1⟩

/-- The arguments of `config`. -/
def configGrammar : Grammar := ⟨[verbose, textOption "input" (some 'i')], [help], some 0⟩

/-- The count given with an option, or a standard one. -/
def countOf (p : Parsed) (name : String) (standard : Nat) : Nat :=
  ((p.value? name).bind count?).getD standard

/-- The geometry given with options, or the standard one. -/
def geometryOf (p : Parsed) : Geometry :=
  ⟨countOf p "data-shards" defaultDataShards, countOf p "parity-shards" defaultParityShards⟩

/-- Read the arguments of `simulate`. The receiver has the geometry of the sender where none is given. -/
def parseSimulate (args : List String) : Except Stop Command := do
  let (p, _) ← simulateGrammar.scan {} args
  let sender := geometryOf p
  return simulate
    { sender
      receiver := ⟨countOf p "decoder-data-shards" sender.data,
        countOf p "decoder-parity-shards" sender.parity⟩
      packets := countOf p "packets" 10000
      loss := ((p.value? "loss").bind Binary64.ofText?).getD (.ofRatio false 5 100)
      payloadSize := countOf p "payload-size" 1024
      seed := UInt64.ofNat (countOf p "seed" 1) }
    (p.value? "report")

/-- Read the arguments of `inspect`. -/
def parseInspect (args : List String) : Except Stop Command := do
  let (p, _) ← inspectGrammar.scan {} args
  match p.operands with
  | [packet] => return inspect packet (geometryOf p)
  | _ => throw .usage

/-- Read the arguments of `config`. -/
def parseConfig (args : List String) : Except Stop Command := do
  let (p, _) ← configGrammar.scan {} args
  return config (p.value? "input")

/-- The names of the commands. -/
def names : List String := ["simulate", "inspect", "config", "help"]

/-- Read the arguments of the program. -/
def parse (args : List String) : Except Stop Command := do
  let (_, rest) ← programGrammar.scan {} args
  match rest with
  | "simulate" :: rest => parseSimulate rest
  | "inspect" :: rest => parseInspect rest
  | "config" :: rest => parseConfig rest
  | ["help"] => throw .help
  | ["help", name] => throw (if name ∈ names then .help else .usage)
  | _ => throw .usage

end Command

end PacketFec
