import SignalAtlas.SortedMap
import SignalAtlas.RunSort
import SignalAtlas.Text.Blank
import SignalAtlas.Text.Bytes
import SignalAtlas.Json.Basic
import SignalAtlas.Json.Raw
import SignalAtlas.Decimal.Binary
import SignalAtlas.Decimal.Fixed
import SignalAtlas.Decimal.Shortest
import SignalAtlas.Json.Printer
import SignalAtlas.Script.Node
import SignalAtlas.Script.Cursor
import SignalAtlas.Script.Source
import SignalAtlas.Signal.Fact
import SignalAtlas.Signal.Literal
import SignalAtlas.Signal.Flag
import SignalAtlas.Signal.Handler
import SignalAtlas.Signal.Extract
import SignalAtlas.Graph.Basic
import SignalAtlas.Graph.Codec
import SignalAtlas.Graph.Unused
import SignalAtlas.Graph.Topology
import SignalAtlas.Community.Network
import SignalAtlas.Community.Partition
import SignalAtlas.Community.Clustering
import SignalAtlas.Disk.Path
import SignalAtlas.Project.Outcome
import SignalAtlas.Report
import SignalAtlas.Disk.Tree
import SignalAtlas.Disk.Basic
import SignalAtlas.Project.Discovery
import SignalAtlas.Project.Ledger
import SignalAtlas.Project.Store
import SignalAtlas.Project.Provider
import SignalAtlas.Project.Machine
import SignalAtlas.Project.Workers
import SignalAtlas.Project.Progress
import SignalAtlas.Project.Pool
import SignalAtlas.Project.Scan
import SignalAtlas.Project.Session
import SignalAtlas.Script.Codec
import SignalAtlas.Command.Arguments
import SignalAtlas.Command.Run
import SignalAtlas.Command.Snapshot
import SignalAtlas.Main
import SignalAtlas.Proofs.Bindings
import SignalAtlas.Proofs.Accounting
import SignalAtlas.Proofs.Scripts
import SignalAtlas.Proofs.Codecs
import SignalAtlas.Proofs.Buckets
import SignalAtlas.Proofs.Regrouping
import SignalAtlas.Proofs.Strategies
import SignalAtlas.Proofs.Ledgers
import SignalAtlas.Proofs.Rescans
import SignalAtlas.Proofs.Reopenings
import SignalAtlas.Proofs.RoundTrips
import SignalAtlas.Proofs.Versions
import SignalAtlas.Proofs.LocalMaxima
import SignalAtlas.Proofs.Components
import SignalAtlas.Proofs.Recounts
import SignalAtlas.Proofs.Building
import SignalAtlas.Proofs.Extras
import SignalAtlas.Proofs.Locality
import SignalAtlas.Proofs.Bitmasks
import SignalAtlas.Proofs.Classifications
import SignalAtlas.Proofs.Topologies
import SignalAtlas.Proofs.Discoveries
import SignalAtlas.Proofs.Chunks
import SignalAtlas.Proofs.Bookkeeping
import SignalAtlas.Proofs.Visits
import SignalAtlas.Proofs.SourceOrder
import SignalAtlas.Proofs.Literals
import SignalAtlas.Proofs.FullAnalyses
