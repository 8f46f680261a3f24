/-!
# Syntax trees

A `Node` is a syntax tree: what is known of the node itself, its `Tag`, and its children. A tree can
be given as the list of its tags by depth, parents first (`Node.ofPreorder?`).

* `Node.preorder` lists a tree, parents before their children and children in order;
* `Node.namedChildren` and `Node.field?` select among the children.
-/

namespace SignalAtlas

/-- What is known of a node without its children. A node is `named` if it is a rule of the grammar
and no mere token, and `extra` if it may stand anywhere, like a comment or a line continuation; an
`error` covers text that fits nowhere, a `missing` node stands for text that is not there. `field`
is the part that it plays in its parent. It covers the bytes from `start` up to `stop`, the first of
them in row `row`, counted from zero. -/
structure Tag where
  kind : String
  named : Bool
  extra : Bool
  error : Bool
  missing : Bool
  field : Option String
  start : Nat
  stop : Nat
  row : UInt32
  deriving DecidableEq, Repr, Inhabited

/-- A syntax tree: a tag over the children. -/
inductive Node where
  | node (tag : Tag) (children : List Node)
  deriving Inhabited

namespace Node

/-- What is known of the node itself. -/
def tag : Node → Tag
  | .node t _ => t

/-- The children in order. -/
def children : Node → List Node
  | .node _ l => l

/-- The grammatical kind. -/
def kind (n : Node) : String := n.tag.kind

/-- The line of the first byte, counted from one. -/
def line (n : Node) : UInt64 := n.tag.row.toUInt64 + 1

/-- Whether a node is a rule of the grammar and stands where the grammar wants it. -/
def significant (n : Node) : Bool := n.tag.named && !n.tag.extra

/-- Whether a node marks a syntax error. -/
def faulty (n : Node) : Bool := n.tag.error || n.tag.missing

/-- The children that are significant. -/
def namedChildren (n : Node) : List Node := n.children.filter significant

/-- The first child that plays a part. -/
def field? (n : Node) (name : String) : Option Node :=
  n.children.find? fun c => c.tag.field == some name

/-! ### Sizes -/

mutual

/-- The number of nodes of a tree. -/
def size : Node → Nat
  | .node _ l => forestSize l + 1

/-- The number of nodes of a list of trees. -/
def forestSize : List Node → Nat
  | [] => 0
  | n :: l => n.size + forestSize l

end

theorem size_pos (n : Node) : 0 < n.size := by
  cases n; simp [size]

theorem size_eq (n : Node) : n.size = forestSize n.children + 1 := by
  cases n; rfl

theorem forestSize_append (l₁ l₂ : List Node) :
    forestSize (l₁ ++ l₂) = forestSize l₁ + forestSize l₂ := by
  induction l₁ with
  | nil => simp [forestSize]
  | cons n l ih => simp [forestSize, ih]; omega

theorem forestSize_filter_le (p : Node → Bool) (l : List Node) :
    forestSize (l.filter p) ≤ forestSize l := by
  induction l with
  | nil => simp
  | cons n l ih =>
    rw [List.filter_cons]
    split <;> simp only [forestSize] <;> omega

theorem size_le_forestSize {n : Node} {l : List Node} (h : n ∈ l) : n.size ≤ forestSize l := by
  induction l with
  | nil => simp at h
  | cons m l ih =>
    simp only [forestSize]
    rcases List.mem_cons.1 h with rfl | h
    · omega
    · have := ih h; omega

/-- The significant children together are smaller than their parent. -/
theorem forestSize_namedChildren_lt (n : Node) : forestSize n.namedChildren < n.size := by
  have := forestSize_filter_le significant n.children
  rw [n.size_eq]
  exact Nat.lt_succ_of_le this

theorem size_lt_of_mem_namedChildren {m n : Node} (h : m ∈ n.namedChildren) :
    m.size < n.size :=
  Nat.lt_of_le_of_lt (size_le_forestSize h) (forestSize_namedChildren_lt n)

theorem size_lt_of_field? {m n : Node} {name : String} (h : n.field? name = some m) :
    m.size < n.size := by
  have := size_le_forestSize (List.mem_of_find?_eq_some h)
  rw [n.size_eq]
  exact Nat.lt_succ_of_le this

/-! ### Order -/

mutual

/-- The nodes of a tree, parents before their children and children in order. -/
def preorder : Node → List Node
  | .node t l => .node t l :: forestPreorder l

/-- The nodes of a list of trees. -/
def forestPreorder : List Node → List Node
  | [] => []
  | n :: l => n.preorder ++ forestPreorder l

end

/-- Put a node in front of trees with their depths: the deeper ones at the front become its
children. -/
def attach (entry : Nat × Tag) (trees : List (Nat × Node)) : List (Nat × Node) :=
  let (inner, outer) := trees.span fun t => decide (entry.1 < t.1)
  (entry.1, .node entry.2 (inner.map Prod.snd)) :: outer

/-- The tree with given depths and tags, parents first. -/
def ofPreorder? (entries : List (Nat × Tag)) : Option Node :=
  match entries.foldr attach [] with
  | [(_, root)] => some root
  | _ => none

end Node

end SignalAtlas
