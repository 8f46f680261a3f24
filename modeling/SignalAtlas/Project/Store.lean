import SignalAtlas.Disk.Basic
import SignalAtlas.Graph.Codec
import SignalAtlas.Json.Printer
import SignalAtlas.Json.Raw

/-!
# The stored graph

The graph of a project is stored as JSON in the state folder below the project's folder. A stored
graph of another version counts as none, and so does whatever cannot be read as a graph.
-/

namespace SignalAtlas.Store

/-- The folder with everything that is stored for a project. -/
def stateFolder : Bytes := ".sigscope"

/-- The name of the graph's file. -/
def graphFile : Bytes := "signal_graph.json"

/-- The path of a stored file of a project. -/
def statePath (root : Path) (file : Bytes) : Path := (root.join stateFolder).join file

/-- The path of the graph of a project. -/
def graphPath (root : Path) : Path := statePath root graphFile

/-- The version of a stored graph, cut down to 32 bits; 0 if it tells none. -/
def version (j : Json) : UInt32 :=
  let found := ((j.member? "metadata").bind (·.member? "schemaVersion")).bind Json.word64?
  (found.getD 0).toUInt32

/-- The graph in a stored text. -/
def ofBytes? (b : Bytes) : Option Graph :=
  match Json.parse? b with
  | some j => if version j = Graph.schema then Graph.ofJson? j else none
  | none => none

/-- The stored graph of a project. -/
def load? (d : Disk) (root : Path) : Option Graph :=
  match d.read (graphPath root) with
  | .ok b => ofBytes? b
  | .error _ => none

/-- Store the graph of a project. -/
def save (refusal : Disk.Refusal) (d : Disk) (root : Path) (g : Graph) :
    Disk × Except IoError Unit :=
  d.save refusal (graphPath root) (Text.bytes g.toJson.pretty)

end SignalAtlas.Store
