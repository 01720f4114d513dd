import PacketFec.Config
import PacketFec.Counters
import PacketFec.Failure
import PacketFec.Json.Parser
import PacketFec.Json.Printer
import PacketFec.Shard.Kind

/-!
# Domain values in JSON

Configurations, geometries, counters and kinds of shard as JSON values. A record may be an object or an
array of its fields in order. A configuration may leave fields out; a geometry and a snapshot may not. A
configuration file is a text with a configuration.
-/

namespace PacketFec

namespace Config

/-- The names of the fields, in their order. -/
def fieldNames : List String := ["data_shards", "parity_shards", "header_offset", "staleness_ms"]

/-- The configuration that a value describes. A field that is left out has its standard value. -/
def ofJson? (v : Json) : Option Config := do
  match ← v.record? fieldNames with
  | [data, parity, offset, staleness] =>
    return ⟨⟨data.getD defaultDataShards, parity.getD defaultParityShards⟩, offset.getD 0,
      staleness.getD defaultStaleness⟩
  | _ => none

/-- The configuration that a text describes. -/
def ofText? (s : String) : Option Config := (Json.parse s.toList).bind ofJson?

/-- A configuration as a value. -/
def toJson (c : Config) : Json :=
  .ofFields [("data_shards", .natural c.geometry.data), ("parity_shards", .natural c.geometry.parity),
    ("header_offset", .natural c.headerOffset), ("staleness_ms", .natural c.staleness)]

/-- The configuration in a file, whose content is nothing where it cannot be read. The content must be
UTF-8 text, describe a configuration, and that configuration must be valid. -/
def load (path : String) (content : Option ByteArray) : Except Failure Config :=
  match content.bind String.fromUTF8? with
  | none => .error (.unreadable path)
  | some text =>
    match ofText? text with
    | none => .error (.notConfiguration path)
    | some c =>
      match c.validate with
      | .ok () => .ok c
      | .error e => .error (.of (.invalidConfiguration path) e)

end Config

namespace Geometry

/-- The geometry that a value describes. -/
def ofJson? (v : Json) : Option Geometry := do
  match ← v.record? ["data_shards", "parity_shards"] with
  | [some data, some parity] => return ⟨data, parity⟩
  | _ => none

end Geometry

namespace Counters

/-- The counters that a value describes. -/
def ofJson? (v : Json) : Option Counters := do
  let values ← (← v.record? (Counter.all.map Counter.field)).mapM id
  return (Counter.all.zip values).foldl (fun c entry => c.set entry.1 (UInt64.ofNat entry.2)) zero

/-- Counters as a value. -/
def toJson (c : Counters) : Json :=
  .ofFields (Counter.all.map fun k => (k.field, .natural (c.get k).toNat))

end Counters

namespace Kind

/-- The kind of a name. -/
def ofPieces? (name : List Piece) : Option Kind :=
  match Piece.text? name with
  | some text =>
    if text = Kind.data.name.toList then some .data
    else if text = Kind.parity.name.toList then some .parity
    else none
  | none => none

/-- The kind that a value describes: its name, or an object with its name and nothing behind it. -/
def ofJson? : Json → Option Kind
  | .string name => ofPieces? name
  | .object [(name, .null)] => ofPieces? name
  | _ => none

end Kind

end PacketFec
