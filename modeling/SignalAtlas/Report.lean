import SignalAtlas.Community.Clustering
import SignalAtlas.Decimal.Fixed
import SignalAtlas.Graph.Codec
import SignalAtlas.Graph.Unused
import SignalAtlas.Json.Printer
import SignalAtlas.Project.Outcome

/-!
# Reports

The results of a scan, of the search for unused signals and of clustering, as plain text and as
JSON.
-/

namespace SignalAtlas

namespace Report

/-- A text filled up at its back to a number of characters. -/
def padRight (width : Nat) (s : String) : String :=
  s ++ .ofList (List.replicate (width - s.length) ' ')

/-! ### Scans -/

/-- The report on a scan. -/
def scan (stats : ScanStats) (m : Metadata) (errors : List FileError) : String :=
  s!"Scanned {stats.filesDiscovered} files ({stats.filesParsed} parsed, " ++
    s!"{stats.filesSkipped} unchanged, {stats.filesFailed} failed) in {stats.durationMs}ms\n" ++
    s!"Graph: {m.signalCount} signals, {m.emissionCount} emissions, " ++
    s!"{m.connectionCount} connections across {m.fileCount} files\n" ++
    String.join (errors.map fun e =>
      s!"  skipped {e.relativePath} ({e.kind.label}): {e.message}\n")

/-- The report on a scan as JSON, if the paths of the dropped files are texts. -/
def scanJson? (stats : ScanStats) (m : Metadata) (errors : List FileError) : Option Json :=
  (errors.mapM FileError.toJson?).map fun errors =>
    .object [("stats", stats.toJson), ("graph", m.toJson), ("errors", .array errors)]

/-! ### Unused signals -/

/-- The word for a pattern in a report. -/
def patternLabel : Pattern → String
  | .orphan => "orphan"
  | .deadEmitter => "dead-emitter"
  | .isolated => "isolated"

/-- The word for a pattern in JSON. -/
def patternKey : Pattern → String
  | .orphan => "Orphan"
  | .deadEmitter => "DeadEmitter"
  | .isolated => "Isolated"

/-- The width of the column of names, which is the size of the longest one in bytes. -/
def nameWidth (reports : List UnusedReport) : Nat :=
  reports.foldl (fun w r => max w r.signalName.utf8ByteSize) 0

/-- One line on a signal that is not used. -/
def unusedLine (width : Nat) (r : UnusedReport) : String :=
  padRight 12 (patternLabel r.pattern) ++ " " ++ padRight width r.signalName ++ "  " ++
    Fixed.render 2 r.confidence ++ "  " ++ r.reason ++ "\n"

/-- The greatest width of a column. -/
def maxWidth : Nat := 65535

/-- The report on unused signals, unless the column of names is too wide. -/
def unused? (u : UnusedResult) : Option String :=
  let s := u.stats
  let width := nameWidth u.reports
  if u.reports.isEmpty then some s!"No unused signals among {s.signalsAnalyzed} analyzed\n"
  else if maxWidth < width then none
  else
    some (String.join (u.reports.map (unusedLine width)) ++
      s!"\n{s.totalUnused} unused of {s.signalsAnalyzed} signals ({s.orphansFound} orphan, " ++
      s!"{s.deadEmittersFound} dead emitter, {s.isolatedFound} isolated)\n")

/-- The report on unused signals as JSON. -/
def unusedJson (u : UnusedResult) : Json :=
  let s := u.stats
  .object
    [("reports", .array (u.reports.map fun r =>
        .object
          [("signalName", .string r.signalName), ("pattern", .string (patternKey r.pattern)),
            ("confidence", .real r.confidence), ("reason", .string r.reason)])),
      ("stats", .object
        [("signalsAnalyzed", .nat s.signalsAnalyzed), ("orphansFound", .nat s.orphansFound),
          ("deadEmittersFound", .nat s.deadEmittersFound),
          ("isolatedFound", .nat s.isolatedFound), ("totalUnused", .nat s.totalUnused),
          ("durationMs", .nat s.durationMs), ("avgConfidence", .real s.avgConfidence)])]

/-! ### Clusters -/

/-- The report on one cluster. -/
def cluster (c : Nat × List String) : String :=
  s!"Cluster {c.1} ({c.2.length} files)\n" ++ String.join (c.2.map fun m => s!"  {m}\n")

/-- The report on clusters. -/
def clusters (c : Clustering Float) : String :=
  String.join (c.clusters.entries.map cluster) ++
    "Modularity: " ++ Fixed.render 3 c.modularity ++ "\n"

/-- The report on clusters as JSON. -/
def clustersJson (c : Clustering Float) : Json :=
  .object
    [("clusters", .object (c.clusters.entries.map fun e => (toString e.1, .strings e.2))),
      ("nodeToCluster", .ofMap .nat c.clusterOf), ("modularity", .real c.modularity)]

end Report

end SignalAtlas
