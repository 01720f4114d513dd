import PacketFec.Main
import PacketFec.Robustness
import PacketFec.Session
import PacketFec.Proofs.Field
import PacketFec.Proofs.Interpolation
import PacketFec.Proofs.Codec
import PacketFec.Proofs.Numbering
import PacketFec.Proofs.Sealing
import PacketFec.Proofs.GroupOrder
import PacketFec.Proofs.Transmission
import PacketFec.Proofs.Periods
import PacketFec.Proofs.Provenance
import PacketFec.Proofs.ShardSets
import PacketFec.Proofs.Receiving
import PacketFec.Proofs.HostileInput
import PacketFec.Proofs.Wire
import PacketFec.Proofs.CodeMatrix
import PacketFec.Proofs.ParityRows
import PacketFec.Proofs.Delivery
import PacketFec.Proofs.EndToEnd
import PacketFec.Proofs.Fitting
import PacketFec.Proofs.Windows
import PacketFec.Proofs.Detection
import PacketFec.Proofs.Retuning
import PacketFec.Proofs.Eviction
import PacketFec.Proofs.Wraparound
import PacketFec.Proofs.FullWindow
import PacketFec.Proofs.CleanStart
import PacketFec.Proofs.Rollover
import PacketFec.Proofs.Stabilisation
import PacketFec.Proofs.Exchange
import PacketFec.Proofs.Lending
import PacketFec.Proofs.SessionRuns
import PacketFec.Proofs.Isolation
import PacketFec.Proofs.Conservation
import PacketFec.Proofs.Tally
import PacketFec.Proofs.Completion
import PacketFec.Proofs.Ledger
import PacketFec.Proofs.Channel
import PacketFec.Proofs.Counting
import PacketFec.Proofs.Gauge
import PacketFec.Proofs.Validation
import PacketFec.Proofs.SimulationRuns
import PacketFec.Proofs.Exactness
import PacketFec.Proofs.Rounding
import PacketFec.Proofs.Bookkeeping
import PacketFec.Proofs.Integrity
import PacketFec.Proofs.Repetition
import PacketFec.Proofs.Resynchronisation
import PacketFec.Proofs.InPlace
import PacketFec.Proofs.Refusals
import PacketFec.Proofs.Framing
import PacketFec.Proofs.Hexadecimal
import PacketFec.Proofs.Inspecting
import PacketFec.Proofs.JsonGrammar
import PacketFec.Proofs.JsonWriting
import PacketFec.Proofs.JsonAcceptance
import PacketFec.Proofs.ConfigFiles
