import SignalAtlas.Signal.Fact

/-!
# Signal graphs

A `Graph` holds the facts of a project, by sort and by the name of the signal. The facts of one
sort and name are a *bucket*; a bucket keeps the order in which its facts were added.

* `Graph.add` files a fact, `Graph.definitionsOf` and its siblings look a bucket up;
* `Graph.factsByFile` regroups the facts by file;
* `Graph.ofFiles` builds the graph of a project.
-/

namespace SignalAtlas

/-- The version of the stored form of a graph. -/
def Graph.schema : UInt32 := 1

/-- What is known of a graph as a whole: the version of its stored form, the time of building in
milliseconds since the epoch, and the numbers of files, names, emissions and connections. -/
structure Metadata where
  schemaVersion : UInt32
  timestamp : UInt64
  fileCount : Nat
  signalCount : Nat
  emissionCount : Nat
  connectionCount : Nat
  deriving DecidableEq, Repr

/-- The metadata of an empty graph. -/
def Metadata.initial : Metadata := ⟨Graph.schema, 0, 0, 0, 0, 0⟩

/-- The facts of a project by sort and name. -/
structure Graph where
  definitions : SortedMap String (List Definition)
  emissions : SortedMap String (List Emission)
  connections : SortedMap String (List Connection)
  metadata : Metadata

namespace Graph

/-- The graph without facts. -/
def empty : Graph := ⟨.empty, .empty, .empty, .initial⟩

/-- Append a fact to a bucket. -/
def file {β : Type} (m : SortedMap String (List β)) (name : String) (fact : β) :
    SortedMap String (List β) :=
  m.upsert name fun bucket => bucket.getD [] ++ [fact]

/-- Add a fact to the bucket of its sort and name. -/
def add (g : Graph) : Fact → Graph
  | .definition d => { g with definitions := file g.definitions d.name d }
  | .emission e => { g with emissions := file g.emissions e.signalName e }
  | .connection c => { g with connections := file g.connections c.signalName c }

/-- Add facts in turn. -/
def addAll (g : Graph) (facts : List Fact) : Graph := facts.foldl add g

/-- The declarations of a signal. -/
def definitionsOf (g : Graph) (name : String) : List Definition := g.definitions.getD name []

/-- The emissions of a signal. -/
def emissionsOf (g : Graph) (name : String) : List Emission := g.emissions.getD name []

/-- The connections to a signal. -/
def connectionsOf (g : Graph) (name : String) : List Connection := g.connections.getD name []

/-- The names of all signals in increasing order. -/
def signalNames (g : Graph) : List String :=
  SortedMap.sortedDistinct (g.definitions.keys ++ g.emissions.keys ++ g.connections.keys)

/-- All facts: the declarations by name, then the emissions, then the connections. -/
def facts (g : Graph) : List Fact :=
  g.definitions.values.flatten.map .definition ++ g.emissions.values.flatten.map .emission ++
    g.connections.values.flatten.map .connection

/-- Add a fact to the file that it comes from. -/
def regroup (files : SortedMap String FileSignals) (fact : Fact) : SortedMap String FileSignals :=
  files.upsert fact.filePath fun f => (f.getD (.empty fact.filePath)).push fact

/-- The facts by the file that they come from. -/
def factsByFile (g : Graph) : SortedMap String FileSignals := g.facts.foldl regroup .empty

/-- The number of items in all buckets. -/
def total {α : Type} (m : SortedMap String (List α)) : Nat :=
  m.values.foldl (fun n bucket => n + bucket.length) 0

/-- Count anew what a graph holds. -/
def refresh (g : Graph) (now : UInt64) (fileCount : Nat) : Graph :=
  { g with
    metadata :=
      { schemaVersion := schema
        timestamp := now
        fileCount
        signalCount := g.signalNames.length
        emissionCount := total g.emissions
        connectionCount := total g.connections } }

/-- The graph of files. They are taken by increasing path, so that the order in which they were
read does not matter. -/
def ofFiles (now : UInt64) (files : List FileSignals) : Graph :=
  let sorted := files.mergeSort fun a b => a.filePath ≤ b.filePath
  (empty.addAll (sorted.flatMap FileSignals.facts)).refresh now files.length

end Graph

end SignalAtlas
