import SignalAtlas.Project.Scan
import SignalAtlas.Project.Store
import SignalAtlas.Signal.Extract

/-!
# Sessions

A `Session` keeps the facts of a project up to date. `Session.open` restores what an earlier
session has stored, `Session.analyze` scans the project, replaces the facts of the files that were
parsed, forgets the files that are gone or cannot be parsed, and builds the graph. If the session is
persistent it stores the graph and then the ledger.
-/

namespace SignalAtlas

/-- How a session parses files, and whether it stores and restores its state. -/
structure SessionOptions where
  scan : ScanOptions := {}
  persist : Bool := true
  deriving DecidableEq, Repr

/-- The state of a session: what is remembered of the files, and the facts of each file by its
relative path. -/
structure Session where
  root : Path
  options : SessionOptions
  ledger : Ledger
  table : SortedMap String FileSignals

/-- The result of an analysis: the graph of the project, the counts of the scan and the files
dropped from it. -/
structure Analysis where
  graph : Graph
  stats : ScanStats
  errors : List FileError

namespace Session

/-- The path of the ledger of a project. -/
def ledgerPath (root : Path) : Path := Store.statePath root Ledger.fileName

/-- The ledger and the facts that an earlier session has stored. Files without facts show up in the
ledger only. Without a graph the ledger is worth nothing. -/
def restore (d : Disk) (root : Path) : Ledger × SortedMap String FileSignals :=
  let ledger := Ledger.empty.load d (ledgerPath root)
  match Store.load? d root with
  | none => (ledger.clear, .empty)
  | some g =>
    let known := ledger.paths.map fun p =>
      let relative := (Path.ofText p).relativeTo root
      (relative, FileSignals.empty relative)
    (ledger, (SortedMap.ofList known).insertAll g.factsByFile.entries)

/-- Open the session of a project. -/
def «open» (d : Disk) (root : Path) (o : SessionOptions) : Except ScanError Session :=
  match Scan.resolveRoot d root with
  | .error e => .error e
  | .ok root =>
    let (ledger, table) := if o.persist then restore d root else (.empty, .empty)
    .ok ⟨root, o, ledger, table⟩

/-- The ledger without the entries whose texts name none of the given files. -/
def evictVanished (l : Ledger) (present : List Path) : Ledger :=
  let vanished := (l.paths.map Path.ofText).filter fun p => !present.any fun q => q.same p
  vanished.foldl Ledger.evict l

/-- The ledger and the facts after a scan. -/
def absorb (s : Session) (l : Ledger) (o : ScanOutcome) : Session :=
  let l := evictVanished l o.discovered
  let present := o.discovered.map fun p => p.relativeTo o.root
  let table := s.table.filter fun relative _ => present.contains relative
  let table := o.errors.foldl (fun t e => t.erase e.relativePath) table
  let l := o.errors.foldl (fun l e => l.evict e.path) l
  let table := o.files.foldl
    (fun t f => t.insert f.relativePath (f.script.extract f.relativePath)) table
  { s with ledger := l, table := table }

/-- Store the graph and then the ledger of a session. -/
def persist (m : Machine) (s : Session) (d : Disk) (g : Graph) : Disk × Except ScanError Unit :=
  match Store.save m.refusal d s.root g with
  | (d, .error e) => (d, .error (.graph e))
  | (d, .ok ()) =>
    match s.ledger.persist m.refusal d (ledgerPath s.root) with
    | (d, .error e) => (d, .error (.io e))
    | (d, .ok ()) => (d, .ok ())

/-- What an analysis leaves behind: the disk, the session, the events that were sent, and the
result. -/
structure Report where
  disk : Disk
  session : Session
  events : List ScanEvent
  result : Except ScanError Analysis

/-- Scan the project of a session and rebuild its graph. -/
def analyze (m : Machine) (p : Provider) (s : Session) (d : Disk) (mode : ScanMode) : Report :=
  let scan := Scan.run m p s.options.scan mode s.ledger d s.root
  match scan.result with
  | .error e => ⟨scan.disk, { s with ledger := scan.ledger }, scan.events, .error e⟩
  | .ok o =>
    let s := s.absorb scan.ledger o
    let g := Graph.ofFiles scan.disk.now s.table.values
    let stored := if s.options.persist then persist m s scan.disk g else (scan.disk, .ok ())
    { disk := stored.1
      session := s
      events := scan.events
      result := stored.2.map fun _ => ⟨g, o.stats, o.errors⟩ }

end Session

end SignalAtlas
