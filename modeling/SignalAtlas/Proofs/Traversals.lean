import Mathlib.Tactic
import SignalAtlas.Script.Source

/-!
# Walking through a tree

What a cursor has still to visit is known at every place: the subtree at the place, then what
follows it and its ancestors (`Cursor.ahead`). Advancing leaves exactly the present node behind
(`ahead_eq_cons`), so the visits of a whole walk are the nodes ahead of its start, up to the first
one that ends it (`Cursor.visits_eq`).
-/

namespace SignalAtlas

namespace Cursor

/-- The nodes that follow the subtrees of some ancestors in document order. -/
def afterAbove : List (Node × List Node) → List Node
  | [] => []
  | (_, l) :: up => Node.forestPreorder l ++ afterAbove up

/-- The nodes that follow the subtree at a place in document order. -/
def after (c : Cursor) : List Node := Node.forestPreorder c.later ++ afterAbove c.above

/-- The nodes from a place on in document order. -/
def ahead (c : Cursor) : List Node := c.node.preorder ++ c.after

theorem after_of_nextSibling? {c d : Cursor} (h : c.nextSibling? = some d) : c.after = d.ahead := by
  rcases c with ⟨n, _ | ⟨m, l⟩, up⟩
  · cases h
  · cases h
    simp [after, ahead, Node.forestPreorder]

theorem after_of_parent? {c d : Cursor} (hlast : c.nextSibling? = none) (h : c.parent? = some d) :
    c.after = d.after := by
  rcases c with ⟨n, _ | ⟨m, l⟩, _ | ⟨⟨a, k⟩, up⟩⟩
  · cases h
  · cases h
    simp [after, afterAbove, Node.forestPreorder]
  · cases hlast
  · cases hlast

theorem after_eq_nil {c : Cursor} (hlast : c.nextSibling? = none) (hroot : c.parent? = none) :
    c.after = [] := by
  rcases c with ⟨n, _ | ⟨m, l⟩, _ | ⟨⟨a, k⟩, up⟩⟩
  · rfl
  · cases hroot
  · cases hlast
  · cases hlast

/-- Climbing goes to what follows the present subtree. -/
theorem after_eq_climb (c : Cursor) : c.after = (c.climb?.map ahead).getD [] := by
  fun_induction climb? c with
  | case1 c next h => exact after_of_nextSibling? h
  | case2 c hlast up h _ ih => rw [after_of_parent? hlast h, ih]
  | case3 c hlast hroot => exact after_eq_nil hlast hroot

/-- Advancing leaves the present node behind and nothing else. -/
theorem ahead_eq_cons (c : Cursor) : c.ahead = c.node :: (c.advance?.map ahead).getD [] := by
  rcases c with ⟨⟨t, _ | ⟨m, l⟩⟩, later, up⟩
  · have hclimb := after_eq_climb ⟨.node t [], later, up⟩
    simpa [ahead, advance?, firstChild?, Node.children, Node.preorder, Node.forestPreorder]
      using hclimb
  · simp [ahead, after, afterAbove, advance?, firstChild?, Node.children, Node.preorder,
      Node.forestPreorder]

/-- The members of a list up to the first one that fails a test, which is the last of them. -/
def upTo (goOn : Node → Bool) : List Node → List Node
  | [] => []
  | n :: l => if goOn n then n :: upTo goOn l else [n]

theorem visits_eq (goOn : Node → Bool) (c : Cursor) : c.visits goOn = upTo goOn c.ahead := by
  fun_induction visits goOn c with
  | case1 c hgo next h _ ih =>
    rw [ahead_eq_cons, h, upTo, if_pos hgo, ih]
    rfl
  | case2 c hgo h =>
    rw [ahead_eq_cons, h, upTo, if_pos hgo]
    rfl
  | case3 c hstop => rw [ahead_eq_cons, upTo, if_neg hstop]

theorem upTo_of_forall {goOn : Node → Bool} {l : List Node} (h : ∀ n ∈ l, goOn n = true) :
    upTo goOn l = l := by
  induction l with
  | nil => rfl
  | cons n l ih =>
    rw [upTo, if_pos (h n (by simp)), ih fun m hm => h m (List.mem_cons_of_mem _ hm)]

end Cursor

theorem Node.visits_eq (root : Node) (goOn : Node → Bool) :
    root.visits goOn = Cursor.upTo goOn root.preorder := by
  rw [visits, Cursor.visits_eq]
  simp [Cursor.ahead, Cursor.after, Cursor.afterAbove, Cursor.atRoot, forestPreorder]

/-- The walk through a script takes its significant nodes in document order. -/
theorem Script.walk_eq (s : Script) : s.walk = s.root.preorder.filter Node.significant := by
  rw [walk, Node.visits_eq, Cursor.upTo_of_forall fun _ _ => rfl]

end SignalAtlas
