import SignalAtlas.Script.Node

/-!
# Cursors

A `Cursor` is a place in a syntax tree. It moves to the first child, the next sibling or the
parent, and `Cursor.visits` drives it through a whole tree: down if there is a child, else on to the
next sibling of the place or of its nearest ancestor that has one. The walk ends after the first
node that is told to end it.
-/

namespace SignalAtlas

/-- A place in a tree: the node there, the siblings after it, and the ancestors, nearest first, each
with the siblings after it. -/
structure Cursor where
  node : Node
  later : List Node
  above : List (Node × List Node)

namespace Cursor

/-- The place of the root of a tree. -/
def atRoot (root : Node) : Cursor := ⟨root, [], []⟩

/-- Move to the first child. -/
def firstChild? (c : Cursor) : Option Cursor :=
  match c.node.children with
  | [] => none
  | n :: l => some ⟨n, l, (c.node, c.later) :: c.above⟩

/-- Move to the next sibling. -/
def nextSibling? (c : Cursor) : Option Cursor :=
  match c.later with
  | [] => none
  | n :: l => some ⟨n, l, c.above⟩

/-- Move to the parent. -/
def parent? (c : Cursor) : Option Cursor :=
  match c.above with
  | [] => none
  | (n, l) :: up => some ⟨n, l, up⟩

/-- The number of nodes ahead of the ancestors of a place. -/
def aboveSize : List (Node × List Node) → Nat
  | [] => 0
  | (_, l) :: up => Node.forestSize l + aboveSize up

/-- The number of nodes from a place on. -/
def remaining (c : Cursor) : Nat :=
  c.node.size + Node.forestSize c.later + aboveSize c.above

theorem length_above_parent {c d : Cursor} (h : c.parent? = some d) :
    d.above.length < c.above.length := by
  rcases c with ⟨n, l, _ | ⟨⟨m, k⟩, up⟩⟩
  · simp [parent?] at h
  · cases h; simp

/-- Move to the next sibling of the place or of its nearest ancestor that has one. -/
def climb? (c : Cursor) : Option Cursor :=
  match c.nextSibling? with
  | some next => some next
  | none =>
    match h : c.parent? with
    | some up =>
      have := length_above_parent h
      up.climb?
    | none => none
termination_by c.above.length

/-- Move to the node that follows in document order. -/
def advance? (c : Cursor) : Option Cursor :=
  match c.firstChild? with
  | some next => some next
  | none => c.climb?

/-- Climbing leaves the whole present subtree behind. -/
theorem remaining_climb {c d : Cursor} (h : c.climb? = some d) :
    d.remaining + c.node.size ≤ c.remaining := by
  fun_induction climb? c with
  | case1 c next hs =>
    cases h
    rcases c with ⟨n, _ | ⟨m, l⟩, up⟩
    · simp [nextSibling?] at hs
    · cases hs
      simp only [remaining, Node.forestSize]
      omega
  | case2 c hs up hp _ ih =>
    have := ih h
    rcases c with ⟨n, l, _ | ⟨⟨m, k⟩, rest⟩⟩
    · simp [parent?] at hp
    · cases hp
      simp only [remaining, aboveSize] at this ⊢
      omega
  | case3 c hs hp => simp at h

theorem remaining_advance {c d : Cursor} (h : c.advance? = some d) :
    d.remaining < c.remaining := by
  rw [advance?] at h
  split at h
  · next next hc =>
    cases h
    rcases c with ⟨⟨t, _ | ⟨m, l⟩⟩, k, up⟩
    · simp [firstChild?, Node.children] at hc
    · cases hc
      simp only [remaining, aboveSize, Node.size, Node.forestSize]
      omega
  · have := remaining_climb h
    have := c.node.size_pos
    omega

/-- The nodes visited from a place on, up to the first one for which `goOn` fails. -/
def visits (goOn : Node → Bool) (c : Cursor) : List Node :=
  if goOn c.node then
    match h : c.advance? with
    | some next =>
      have := remaining_advance h
      c.node :: visits goOn next
    | none => [c.node]
  else [c.node]
termination_by c.remaining

end Cursor

/-- The nodes of a tree visited by a cursor that starts at its root. -/
def Node.visits (root : Node) (goOn : Node → Bool) : List Node :=
  (Cursor.atRoot root).visits goOn

end SignalAtlas
