import PacketFec.CommandLine.Command
import PacketFec.Inspection
import PacketFec.Json.Record

/-!
# What the commands print

Each command gives lines of text, and a failure where it stops early. A simulation may also ask for a report
to be written to a file, after its lines are printed.

* `Command.run`: the output of a command.
-/

namespace PacketFec

/-- What a command gives. -/
structure Output where
  /-- Lines for the standard output. -/
  lines : List String
  /-- A file to be written, by its path and text. -/
  report : Option (String × String)
  /-- Why the command stopped, if it did. -/
  failure : Option Failure

namespace Output

/-- Output of lines alone. -/
def ofLines (lines : List String) : Output := ⟨lines, none, none⟩

/-- Output of a failure alone. -/
def ofFailure (f : Failure) : Output := ⟨[], none, some f⟩

/-- The exit code of the program: zero, one after a failure, and 101 after a fault. -/
def exitCode (o : Output) : Nat :=
  match o.failure with
  | none => 0
  | some (.fault _) => 101
  | some _ => 1

end Output

/-- The colours of marks and numbers. -/
inductive Colour where
  | red
  | green
  | yellow

/-- A text between the control sequences of a colour, where colours are on. -/
def Colour.paint (c : Colour) (enabled : Bool) (text : String) : String :=
  let code := match c with
    | red => "31"
    | green => "32"
    | yellow => "33"
  if enabled then "\x1b[" ++ code ++ "m" ++ text ++ "\x1b[0m" else text

/-- A text filled up with blanks on its right. -/
def padded (width : Nat) (text : String) : String :=
  text ++ String.ofList (List.replicate (width - text.length) ' ')

/-- A line with a label and what it is about. -/
def labelled (label text : String) : String := padded 18 (label ++ ":") ++ " " ++ text

/-- A heading, with an empty line in front of it. -/
def heading (title : String) : List String := ["", "=== " ++ title ++ " ==="]

namespace Inspection

/-- The lines that describe a shard. -/
def lines (i : Inspection) (g : Geometry) (colours : Bool) : List String :=
  heading "Shard Packet" ++
  [labelled "Sequence id" s!"{i.seqid.toNat}", labelled "Type" i.kind.name,
    labelled "Body length" s!"{i.bodyLength} bytes"] ++
  (match i.payloadLength, i.kind with
    | some n, _ => [labelled "Payload length" s!"{n} bytes"]
    | none, .data => [labelled "Payload length" (Colour.red.paint colours "invalid size prefix")]
    | none, .parity => []) ++
  heading s!"Group Placement ({g.data}+{g.parity})" ++
  [labelled "Group id" s!"{i.group}", labelled "Position" s!"{i.position}",
    if i.kindFits then Colour.green.paint colours "✓" ++ " Type matches position"
    else Colour.yellow.paint colours "!" ++
      " Type does not match position; sender uses a different geometry"]

end Inspection

namespace Config

/-- The lines that show a configuration. -/
def lines (c : Config) : Except Error (List String) := do
  let size ← c.geometry.size
  let paws ← c.geometry.paws
  let groups ← c.geometry.groupCount
  let overhead := Dyadic.percentage c.geometry.parity c.geometry.data
  return heading "Session Configuration" ++
    [labelled "Data shards" s!"{c.geometry.data}", labelled "Parity shards" s!"{c.geometry.parity}",
      labelled "Group size" s!"{size}", labelled "Header offset" s!"{c.headerOffset} bytes",
      labelled "Staleness" s!"{c.staleness} ms", labelled "PAWS ceiling" s!"{paws}",
      labelled "Group count" s!"{groups}", labelled "Overhead" (overhead.fixed2 ++ "%"), ""] ++
    c.toJson.pretty.splitOn "\n"

end Config

namespace Outcome

/-- The verdict on a session. -/
def verdict (o : Outcome) (colours : Bool) : String :=
  if o.tally.corrupted = 0 ∧ o.unrecovered = 0 then
    Colour.green.paint colours "✓" ++ " Every lost payload was recovered"
  else if o.tally.corrupted = 0 then
    Colour.yellow.paint colours "!" ++ s!" {o.unrecovered} payloads lost beyond the parity budget"
  else Colour.red.paint colours "✗" ++ s!" {o.tally.corrupted} recovered payloads failed verification"

/-- The lines that show what a session came to. -/
def lines (o : Outcome) (colours : Bool) : List String :=
  let corrupted := s!"{o.tally.corrupted}"
  heading "Simulation Results" ++
  [labelled "Data sent" s!"{o.tally.dataSent}", labelled "Parity sent" s!"{o.tally.paritySent}",
    labelled "Data lost" s!"{o.tally.dataLost}", labelled "Parity lost" s!"{o.tally.parityLost}",
    labelled "Recovered" (Colour.green.paint colours s!"{o.tally.verified}"),
    labelled "Corrupted" (Colour.red.paint (colours && o.tally.corrupted > 0) corrupted),
    labelled "Unrecovered" s!"{o.unrecovered}",
    labelled "Recovery rate" (o.recoveryRate.fixed2 ++ "%"), labelled "Retunes" s!"{o.retunes}"] ++
  heading "Metrics" ++
  Counter.columns.map (fun k => labelled k.heading s!"{(o.counters.get k).toNat}") ++
  heading "Summary" ++ [o.verdict colours]

/-- What a session was asked for and what it came to, as a value. -/
def report (o : Outcome) (r : SimulationRequest) : Json :=
  .ofFields
    [("data_shards", .natural r.sender.data), ("parity_shards", .natural r.sender.parity),
      ("decoder_data_shards", .natural r.receiver.data),
      ("decoder_parity_shards", .natural r.receiver.parity),
      ("loss", .numeral r.loss.numeral), ("seed", .natural r.seed.toNat),
      ("data_sent", .natural o.tally.dataSent), ("parity_sent", .natural o.tally.paritySent),
      ("data_lost", .natural o.tally.dataLost), ("parity_lost", .natural o.tally.parityLost),
      ("verified", .natural o.tally.verified), ("corrupted", .natural o.tally.corrupted),
      ("unrecovered", .natural o.unrecovered), ("retunes", .natural o.retunes),
      ("metrics", o.counters.toJson)]

end Outcome

namespace Command

/-- The file that a command reads. -/
def inputFile? : Command → Option String
  | config input => input
  | _ => none

/-- The output of a command. The content of its input file is given, where there is one and it can be
read. -/
def run (command : Command) (content : Option ByteArray) (colours : Bool) : Output :=
  match command with
  | simulate request path =>
    match request.run with
    | .error f => .ofFailure f
    | .ok o =>
      ⟨o.lines colours, path.map fun path => (path, (o.report request).pretty), none⟩
  | inspect packet g =>
    match Inspection.ofText packet g with
    | .error f => .ofFailure f
    | .ok i => .ofLines (i.lines g colours)
  | config input =>
    let chosen := match input with
      | some path => Config.load path content
      | none => .ok .standard
    match chosen with
    | .error f => .ofFailure f
    | .ok c =>
      match c.lines with
      | .error e => .ofFailure (.fault e)
      | .ok lines => .ofLines lines

end Command

end PacketFec
