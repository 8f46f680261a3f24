import SignalAtlas.SortedMap

/-!
# Networks

A `Network n` is an undirected graph on `n` numbered nodes; an edge may occur several times.
`Network.ofNames` numbers the names of a list by their first occurrence and keeps the edges between
two different names of the list.

The quality of a partition is computed over a type of quantities (`Quantity`): over doubles when
the program runs, over rational numbers where exact statements are wanted.
-/

namespace SignalAtlas

/-! ### Quantities -/

/-- Numbers to compute the quality of a partition with. A node is moved only for a gain above
`threshold`. -/
class Quantity (α : Type) extends Add α, Sub α, Mul α, Div α, LT α where
  ofNat : Nat → α
  neutral : α
  threshold : α
  less : (a b : α) → Decidable (a < b)

instance (priority := low) Quantity.instDecidableLT {α : Type} [Quantity α] : DecidableLT α :=
  Quantity.less

instance : Quantity Float where
  ofNat := Nat.toFloat
  neutral := -0.0
  threshold := 1e-10
  less _ _ := inferInstance

instance : Quantity Rat where
  ofNat n := Rat.ofInt (Int.ofNat n)
  neutral := Rat.ofInt 0
  threshold := mkRat 1 10000000000
  less _ _ := inferInstance

/-! ### Networks -/

/-- An undirected graph on `n` numbered nodes. A pair is listed as often as it is linked. -/
structure Network (n : Nat) where
  edges : List (Fin n × Fin n)

namespace Network

variable {n : Nat}

/-- The number of an occurrence of a name in a list. -/
def number? (names : List String) (name : String) : Option (Fin names.length) :=
  names.finIdxOf? name

/-- An edge between two different names of a list. -/
def edge? (names : List String) (e : String × String) :
    Option (Fin names.length × Fin names.length) :=
  match number? names e.1, number? names e.2 with
  | some a, some b => if a = b then none else some (a, b)
  | _, _ => none

/-- The network of distinct names and the edges between two of them. -/
def ofNames (names : List String) (edges : List (String × String)) : Network names.length :=
  ⟨edges.filterMap (edge? names)⟩

/-- The other end of an edge. -/
def otherEnd? (v : Fin n) (e : Fin n × Fin n) : Option (Fin n) :=
  if e.1 = v then some e.2 else if e.2 = v then some e.1 else none

/-- The neighbours of a node, one for each edge. -/
def neighbours (net : Network n) (v : Fin n) : List (Fin n) := net.edges.filterMap (otherEnd? v)

/-- The number of edges at a node. -/
def degree (net : Network n) (v : Fin n) : Nat := (net.neighbours v).length

/-- The number of edges. -/
def size (net : Network n) : Nat := net.edges.length

end Network

end SignalAtlas
