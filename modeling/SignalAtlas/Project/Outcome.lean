import SignalAtlas.Json.Basic
import SignalAtlas.Disk.Path

/-!
# Outcomes of a scan

What a scan reports: the files that it had to drop (`FileError`), its counts (`ScanStats`) and the
events that it sends on its way (`ScanEvent`).
-/

namespace SignalAtlas

/-- Why a file is dropped: it cannot be read, is no UTF-8, cannot be parsed, or its parser
crashed. -/
inductive FileErrorKind where
  | io
  | encoding
  | parse
  | workerCrashed
  deriving DecidableEq, Repr

namespace FileErrorKind

/-- The name of a kind in JSON. -/
def key : FileErrorKind → String
  | .io => "io"
  | .encoding => "encoding"
  | .parse => "parse"
  | .workerCrashed => "workerCrashed"

/-- Read a kind. -/
def ofJson? (j : Json) : Option FileErrorKind :=
  match j.choice? with
  | some "io" => some .io
  | some "encoding" => some .encoding
  | some "parse" => some .parse
  | some "workerCrashed" => some .workerCrashed
  | _ => none

/-- The name of a kind in a report. -/
def label : FileErrorKind → String
  | .io => "Io"
  | .encoding => "Encoding"
  | .parse => "Parse"
  | .workerCrashed => "WorkerCrashed"

end FileErrorKind

/-- A file that is dropped from a scan. -/
structure FileError where
  path : Path
  relativePath : String
  kind : FileErrorKind
  message : String
  deriving DecidableEq

/-- The counts of a scan. Scripts are `filesSkipped` if they are left alone because they are
unchanged; `workers` is one if the scripts were parsed in turn. The time taken is in
milliseconds. -/
structure ScanStats where
  filesDiscovered : Nat := 0
  filesSkipped : Nat := 0
  filesParsed : Nat := 0
  filesFailed : Nat := 0
  bytesParsed : Nat := 0
  workers : Nat := 0
  durationMs : Nat := 0
  deriving DecidableEq, Repr

/-- An event in the course of a scan: the scripts are found, some of them are done, all of them are,
or the scan cannot be made. -/
inductive ScanEvent where
  | started (root : Path) (filesDiscovered filesToParse : Nat)
  | progress (processed total : Nat)
  | completed (stats : ScanStats)
  | failed (error : String)
  deriving DecidableEq

/-- The JSON form of a dropped file, if its path is a text. -/
def FileError.toJson? (e : FileError) : Option Json :=
  e.path.bytes.text?.map fun path =>
    .object
      [("path", .string path), ("relativePath", .string e.relativePath),
        ("kind", .string e.kind.key), ("message", .string e.message)]

/-- The JSON form of the counts of a scan. -/
def ScanStats.toJson (s : ScanStats) : Json :=
  .object
    [("filesDiscovered", .nat s.filesDiscovered), ("filesSkipped", .nat s.filesSkipped),
      ("filesParsed", .nat s.filesParsed), ("filesFailed", .nat s.filesFailed),
      ("bytesParsed", .nat s.bytesParsed), ("workers", .nat s.workers),
      ("durationMs", .nat s.durationMs)]

/-- Read a dropped file. -/
def FileError.ofJson? (j : Json) : Option FileError :=
  match j.fields? ["path", "relativePath", "kind", "message"] with
  | some [some path, some relativePath, some kind, some message] => do
    let path ← path.string?
    let relativePath ← relativePath.string?
    let kind ← FileErrorKind.ofJson? kind
    let message ← message.string?
    return { path := ⟨path⟩, relativePath, kind, message }
  | _ => none

/-- Read the counts of a scan. -/
def ScanStats.ofJson? (j : Json) : Option ScanStats :=
  match j.fields? ["filesDiscovered", "filesSkipped", "filesParsed", "filesFailed", "bytesParsed",
    "workers", "durationMs"] with
  | some [some filesDiscovered, some filesSkipped, some filesParsed, some filesFailed,
      some bytesParsed, some workers, some durationMs] => do
    let filesDiscovered ← filesDiscovered.count?
    let filesSkipped ← filesSkipped.count?
    let filesParsed ← filesParsed.count?
    let filesFailed ← filesFailed.count?
    let bytesParsed ← bytesParsed.count?
    let workers ← workers.count?
    let durationMs ← durationMs.count?
    return ⟨filesDiscovered, filesSkipped, filesParsed, filesFailed, bytesParsed, workers,
      durationMs⟩
  | _ => none

/-- The JSON form of an event, if the path in it is a text. -/
def ScanEvent.toJson? : ScanEvent → Option Json
  | .started root discovered toParse =>
    root.bytes.text?.map fun root =>
      .object
        [("event", .string "started"), ("root", .string root),
          ("filesDiscovered", .nat discovered), ("filesToParse", .nat toParse)]
  | .progress processed total =>
    some (.object
      [("event", .string "progress"), ("processed", .nat processed), ("total", .nat total)])
  | .completed stats => some (.object [("event", .string "completed"), ("stats", stats.toJson)])
  | .failed error => some (.object [("event", .string "failed"), ("error", .string error)])

end SignalAtlas
