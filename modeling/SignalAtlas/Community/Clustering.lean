import SignalAtlas.Community.Partition

/-!
# Clusterings

`Clustering.detect` groups the names of a list so that many of the given edges lie inside the
groups. Clusters are numbered by the first name of the list that they hold.
-/

namespace SignalAtlas

/-- Names grouped into clusters: the sorted names of each cluster, the cluster of each name, and by
how much more edges lie inside the clusters than chance would have it. -/
structure Clustering (α : Type) where
  clusters : SortedMap Nat (List String)
  clusterOf : SortedMap String Nat
  modularity : α

namespace Clustering

/-- The number of passes that are made at most, unless told otherwise. -/
def defaultPasses : Nat := 100

/-- The cluster of each name in order: labels are numbered by their first occurrence. -/
def numbered {n : Nat} (label : Vector (Fin n) n) : List Nat :=
  let distinct := label.toList.eraseDups
  label.toList.map fun c => distinct.idxOf c

/-- Group names by the number of their cluster. -/
def assemble {α : Type} (names : List String) (numbers : List Nat) (modularity : α) :
    Clustering α :=
  let named := names.zip numbers
  { clusters := named.foldl
      (fun m e => m.upsert e.2 fun members =>
        SortedMap.sortedDistinct (members.getD [] ++ [e.1])) .empty
    clusterOf := .ofList named
    modularity }

/-- Group the names of a list along edges between them. A name counts once; edges from a name to
itself or to a name that is not listed do not count. -/
def detect (α : Type) [Quantity α] (passes : Nat) (nodes : List String)
    (edges : List (String × String)) : Clustering α :=
  let names := nodes.eraseDups
  let net := Network.ofNames names edges
  let start := Partition.singletons net
  if net.size = 0 then assemble names (numbered start.label) (Quantity.ofNat 0)
  else
    let p := Partition.settle α net passes start
    assemble names (numbered p.label) (Partition.modularity α net p)

end Clustering

end SignalAtlas
