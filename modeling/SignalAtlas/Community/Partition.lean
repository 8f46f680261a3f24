import SignalAtlas.Community.Network

/-!
# Partitions of a network

A `Partition` labels the nodes of a network; nodes with one label form a cluster. Starting with
every node for itself, `Partition.settle` moves nodes one at a time to the linked cluster that
gains most, pass after pass, until a pass moves none or the passes run out.

The gain of a move is half of what it adds to the modularity, the sum over all clusters c of
e_c / m - (D_c / 2m)², where e_c counts the edges inside c, D_c adds up the degrees of its nodes and
m is the number of all edges.
-/

namespace SignalAtlas

/-- Labels of the nodes of a network, and for each label the sum of the degrees of its nodes. -/
structure Partition (n : Nat) where
  label : Vector (Fin n) n
  weight : Vector Nat n

namespace Partition

variable {n : Nat} {α : Type}

/-- Every node for itself. -/
def singletons (net : Network n) : Partition n where
  label := .ofFn id
  weight := .ofFn net.degree

/-- The number of edges from a node to a cluster. -/
def linksTo (net : Network n) (p : Partition n) (v c : Fin n) : Nat :=
  (net.neighbours v).countP fun u => p.label[u] = c

/-- The other clusters that a node is linked to, by increasing label. -/
def candidates (net : Network n) (p : Partition n) (v : Fin n) : List (Fin n) :=
  (SortedMap.sortedDistinct ((net.neighbours v).map fun u => p.label[u])).filter
    fun c => c ≠ p.label[v]

/-- Half of what moving a node to another cluster adds to the modularity. -/
def gain (α : Type) [Quantity α] (net : Network n) (p : Partition n) (v c : Fin n) : α :=
  let q : Nat → α := Quantity.ofNat
  let home := p.label[v]
  let twice := q (2 * net.size)
  let d := q (net.degree v)
  (q (linksTo net p v c) - q (linksTo net p v home)) / twice -
    d * (q p.weight[c] - q p.weight[home] + d) / (twice * twice)

/-- The cluster that gains most over the threshold, the first of equal ones; the present one if
none does. -/
def best (α : Type) [Quantity α] (net : Network n) (p : Partition n) (v : Fin n) : Fin n :=
  ((candidates net p v).foldl
    (fun (b : Fin n × α) c =>
      let g := gain α net p v c
      if b.2 < g then (c, g) else b)
    (p.label[v], Quantity.threshold)).1

/-- Move a node to a cluster. -/
def move (net : Network n) (p : Partition n) (v c : Fin n) : Partition n :=
  let home := p.label[v]
  let d := net.degree v
  let left := p.weight.set home (p.weight[home] - d)
  { label := p.label.set v c
    weight := left.set c (left[c] + d) }

/-- Move a node to the cluster that gains most, and tell whether it moved. -/
def visit (α : Type) [Quantity α] (net : Network n) (s : Partition n × Bool) (v : Fin n) :
    Partition n × Bool :=
  let c := best α net s.1 v
  if c = s.1.label[v] then s else (move net s.1 v c, true)

/-- Visit all nodes in turn, and tell whether one moved. -/
def pass (α : Type) [Quantity α] (net : Network n) (p : Partition n) : Partition n × Bool :=
  (List.finRange n).foldl (visit α net) (p, false)

/-- Make passes until one moves no node, at most `passes` of them. -/
def settle (α : Type) [Quantity α] (net : Network n) : (passes : Nat) → Partition n → Partition n
  | 0, p => p
  | k + 1, p =>
    let (p, moved) := pass α net p
    if moved then settle α net k p else p

/-- The number of edges inside a cluster. -/
def inside (net : Network n) (p : Partition n) (c : Fin n) : Nat :=
  net.edges.countP fun e => p.label[e.1] = c ∧ p.label[e.2] = c

/-- What a cluster adds to the modularity. -/
def share (α : Type) [Quantity α] (net : Network n) (p : Partition n) (c : Fin n) : α :=
  let q : Nat → α := Quantity.ofNat
  let part := q p.weight[c] / q (2 * net.size)
  q (inside net p c) / q net.size - part * part

/-- The modularity of a partition. -/
def modularity (α : Type) [Quantity α] (net : Network n) (p : Partition n) : α :=
  (((List.finRange n).filter fun c => 0 < p.weight[c]).map (share α net p)).foldl (· + ·)
    Quantity.neutral

end Partition

end SignalAtlas
