import SignalAtlas.Command.Arguments
import SignalAtlas.Community.Clustering
import SignalAtlas.Graph.Topology
import SignalAtlas.Graph.Unused
import SignalAtlas.Project.Session
import SignalAtlas.Report

/-!
# Running commands

`Command.run` carries out a command line on a disk: it analyses the project in a persistent session
and reports on the graph. Every failure is told with the chain of its causes.
-/

namespace SignalAtlas.Command

/-- What a run of the program leaves behind: the exit code and the two texts that it prints. -/
structure Result where
  exit : Nat
  stdout : String
  stderr : String := ""
  deriving DecidableEq, Repr

/-- A failure with what was being done, and its causes, each one caused by the next one. -/
structure Failure where
  context : String
  causes : List String
  deriving DecidableEq, Repr

namespace Failure

/-- A number with blanks in front up to five characters. -/
def padded (n : Nat) : String :=
  let digits := toString n
  .ofList (List.replicate (5 - digits.length) ' ') ++ digits

/-- A cause, with a number if there are several. Its later lines are indented. -/
def line (number : Option Nat) (cause : String) : String :=
  let (first, next) :=
    match number with
    | some n => (padded n ++ ": ", "       ")
    | none => ("    ", "    ")
  first ++ ("\n" ++ next).intercalate (cause.splitOn "\n")

/-- The lines of the causes. -/
def lines (causes : List String) : List String :=
  match causes with
  | [cause] => [line none cause]
  | _ => causes.mapIdx fun i cause => line (some i) cause

/-- The wording of a failure. -/
def message (f : Failure) : String :=
  let causes :=
    if f.causes.isEmpty then [] else "\n\nCaused by:" :: (lines f.causes).map ("\n" ++ ·)
  "Error: " ++ f.context ++ "".intercalate causes ++ "\n"

end Failure

/-- The version of the program. -/
def version : String := "0.1.1"

/-- What help tells. -/
def usage : String :=
  "Signal usage analysis for GDScript projects\n\n" ++
    "Usage: sigscope [--verbose] [--quiet] <scan|unused|clusters> [PATH] [--full] [--json]\n"

/-- Analyse the project of a command. -/
def analyze (m : Machine) (p : Provider) (d : Disk) (i : Invocation) :
    Disk × Except Failure Analysis :=
  match Session.open d i.path {} with
  | .error e => (d, .error ⟨"Failed to open project " ++ i.path.text, e.chain⟩)
  | .ok s =>
    let r := s.analyze m p d (if i.has .full then .full else .incremental)
    (r.disk, r.result.mapError fun e => ⟨"Signal analysis failed", e.chain⟩)

/-- The failure to write a path that is no text. -/
def unwritable : Failure := ⟨"path contains invalid UTF-8 characters", []⟩

/-- What a command prints, if there is a report on the graph; a report on a scan may name paths that
cannot be written. -/
def output? (i : Invocation) (a : Analysis) : Option (Except Failure String) :=
  let json := i.has .json
  match i.command with
  | .scan =>
    if json then
      match Report.scanJson? a.stats a.graph.metadata a.errors with
      | some report => some (.ok (report.pretty ++ "\n"))
      | none => some (.error unwritable)
    else some (.ok (Report.scan a.stats a.graph.metadata a.errors))
  | .unused => do
    let u ← a.graph.unused? (i.has .includeUndeclared) {}
    if json then return .ok ((Report.unusedJson u).pretty ++ "\n")
    else (Report.unused? u).map .ok
  | .clusters =>
    let t := a.graph.topology
    let c := Clustering.detect Float Clustering.defaultPasses t.nodes t.edges
    some (.ok (if json then (Report.clustersJson c).pretty ++ "\n" else Report.clusters c))

/-- What is left behind if a command cannot report on a graph. -/
def broken : Result := ⟨101, "", "No report can be made\n"⟩

/-- What is left behind if no command is run. -/
def ended : Arguments.Ending → Result
  | .help => ⟨0, usage, ""⟩
  | .version => ⟨0, "sigscope " ++ version ++ "\n", ""⟩
  | .invalid => ⟨2, "", usage⟩

/-- Carry out a command line. -/
def run (m : Machine) (p : Provider) (d : Disk) (args : List String) : Disk × Result :=
  match Arguments.parse args with
  | .error e => (d, ended e)
  | .ok i =>
    match analyze m p d i with
    | (d, .error f) => (d, ⟨1, "", f.message⟩)
    | (d, .ok a) =>
      match output? i a with
      | some (.ok text) => (d, ⟨0, text, ""⟩)
      | some (.error f) => (d, ⟨1, "", f.message⟩)
      | none => (d, broken)

end SignalAtlas.Command
