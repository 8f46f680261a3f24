import SignalAtlas.Graph.Basic

/-!
# The topology of files

Two files are linked if one of them declares or emits a signal that the other one connects to.
`Graph.topology` lists the files that take part in any signal and the links between them, both
sorted and each once.
-/

namespace SignalAtlas

/-- Files and the links between them, each with the smaller path first. -/
structure Topology where
  nodes : List String
  edges : List (String × String)
  deriving DecidableEq, Repr

/-- Links are sorted by the first path and then by the second one. -/
instance linkOrd : Ord (String × String) := lexOrd

namespace Graph

/-- The files that declare or emit a signal. -/
def producers (g : Graph) (name : String) : List String :=
  SortedMap.sortedDistinct
    ((g.definitionsOf name).map Definition.filePath ++ (g.emissionsOf name).map Emission.filePath)

/-- The files that connect to a signal. -/
def consumers (g : Graph) (name : String) : List String :=
  SortedMap.sortedDistinct ((g.connectionsOf name).map Connection.filePath)

/-- Two paths with the smaller one first. -/
def ordered (a b : String) : String × String := if b < a then (b, a) else (a, b)

/-- The links that a signal makes. -/
def links (g : Graph) (name : String) : List (String × String) :=
  (g.producers name).flatMap fun p =>
    ((g.consumers name).filter fun c => p ≠ c).map fun c => ordered p c

/-- The files that take part in any signal, and their links. -/
def topology (g : Graph) : Topology where
  nodes := SortedMap.sortedDistinct
    (g.signalNames.flatMap fun name => g.producers name ++ g.consumers name)
  edges := SortedMap.sortedDistinct (g.signalNames.flatMap g.links)

end Graph

end SignalAtlas
