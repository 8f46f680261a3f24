import SignalAtlas.Project.Discovery
import SignalAtlas.Project.Ledger
import SignalAtlas.Project.Progress
import SignalAtlas.Project.Workers

/-!
# Scans

`Scan.run` finds the scripts of a project and parses all of them, or only those that the ledger
does not know in their present state. What is parsed is entered into the ledger. Files that cannot
be parsed are reported; the scan itself fails only if the project has no folder or the provider is
not ready.
-/

namespace SignalAtlas

/-- Why a project cannot be scanned, opened or analysed: it has no folder, the provider is not
ready, or the graph or the ledger cannot be saved. -/
inductive ScanError where
  | invalidRoot (path : Path) (reason : String)
  | providerInit (e : SourceError)
  | graph (e : IoError)
  | io (e : IoError)
  deriving DecidableEq, Repr

namespace ScanError

/-- The wording of an error. -/
def message : ScanError → String
  | .invalidRoot path reason => "Invalid project root " ++ path.text ++ ": " ++ reason
  | .providerInit e => "AST provider failed to initialize: " ++ e.message
  | .graph e => "Graph error: IO error: " ++ e.message
  | .io e => "IO error: " ++ e.message

/-- The wording of an error followed by that of its causes. -/
def chain (e : ScanError) : List String :=
  e.message ::
    match e with
    | .invalidRoot _ _ => []
    | .providerInit (.io e) => ["IO error: " ++ e.message, e.message]
    | .providerInit e => [e.message]
    | .graph e => ["IO error: " ++ e.message, e.message]
    | .io e => [e.message]

end ScanError

/-- Which files a scan parses: all of them or the stale ones. -/
inductive ScanMode where
  | full
  | incremental
  deriving DecidableEq, Repr

/-- Read a mode. -/
def ScanMode.ofJson? (j : Json) : Option ScanMode :=
  match j.choice? with
  | some "full" => some .full
  | some "incremental" => some .incremental
  | _ => none

/-- How a scan parses files: up to `serialThreshold` of them in turn, and more by workers. -/
structure ScanOptions where
  serialThreshold : Nat := 16
  workers : Option Nat := none
  deriving DecidableEq, Repr

/-- The result of a scan: the folder of the project, the scripts found, the files parsed and
dropped, and the counts. -/
structure ScanOutcome where
  root : Path
  discovered : List Path
  files : List ParsedFile
  errors : List FileError
  stats : ScanStats

namespace Scan

/-- The canonical path of a project's folder. -/
def resolveRoot (d : Disk) (root : Path) : Except ScanError Path :=
  match d.canonical root with
  | .error e => .error (.invalidRoot root e.message)
  | .ok path => if d.hasFolder path then .ok path else .error (.invalidRoot root "not a directory")

/-- The job of a script. -/
def job (root path : Path) : Job := ⟨path, path.relativeTo root⟩

/-- The jobs of a scan. -/
def jobs (d : Disk) (mode : ScanMode) (l : Ledger) (root : Path) (discovered : List Path) :
    List Job :=
  (discovered.filter fun p => mode = .full || l.isStale d p).map (job root)

/-- Whether a number of files is parsed in turn. -/
def isSerial (o : ScanOptions) (n : Nat) : Bool := n ≤ o.serialThreshold

/-- The number of workers for a number of files. -/
def workers (m : Machine) (o : ScanOptions) (n : Nat) : Nat :=
  if isSerial o n then 1 else Workers.resolve m n o.workers

/-- Parse the files of jobs. -/
def parse (m : Machine) (p : Provider) (o : ScanOptions) (d : Disk) (js : List Job) :
    Disk × PoolResult × Nat :=
  if isSerial o js.length then Pool.serial p d js
  else Pool.parallel m.arrival m.crashText p d js (workers m o js.length)

/-- Enter the parsed files into a ledger. -/
def record (l : Ledger) (files : List ParsedFile) : Ledger :=
  files.foldl (fun l f => l.update f.path f.mtime) l

/-- The counts of a scan. -/
def stats (discovered jobs workers : Nat) (r : PoolResult) : ScanStats where
  filesDiscovered := discovered
  filesSkipped := discovered - jobs
  filesParsed := r.parsed.length
  filesFailed := r.errors.length
  bytesParsed := r.parsed.foldl (fun n f => n + f.sizeBytes) 0
  workers := workers

/-- What a scan leaves behind: the disk, the ledger, the events that were sent, and the result. -/
structure Report where
  disk : Disk
  ledger : Ledger
  events : List ScanEvent
  result : Except ScanError ScanOutcome

/-- The scan of a project whose folder is known. -/
def runAt (m : Machine) (p : Provider) (o : ScanOptions) (mode : ScanMode) (l : Ledger) (d : Disk)
    (root : Path) : Report :=
  let discovered := d.scripts root
  let js := jobs d mode l root discovered
  let (d, r, done) := parse m p o d js
  let s := stats discovered.length js.length (workers m o js.length) r
  let progress := (Progress.filesDone done (.start root discovered.length js.length)).finish
  { disk := d
    ledger := record l r.parsed
    events := progress.events ++ [.completed s]
    result := .ok ⟨root, discovered, r.parsed, r.errors, s⟩ }

/-- Scan a project. -/
def run (m : Machine) (p : Provider) (o : ScanOptions) (mode : ScanMode) (l : Ledger) (d : Disk)
    (root : Path) : Report :=
  match resolveRoot d root with
  | .error e => ⟨d, l, [.failed e.message], .error e⟩
  | .ok root =>
    match p.init with
    | .error e =>
      let e := ScanError.providerInit e
      ⟨d, l, [.failed e.message], .error e⟩
    | .ok () => runAt m p o mode l d root

end Scan

end SignalAtlas
