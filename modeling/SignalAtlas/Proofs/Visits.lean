import Mathlib.Tactic
import SignalAtlas.Proofs.Traversals

/-!
# Visiting every node once

`Cursor.advanced` follows a cursor step by step. Each step leaves one node behind (`drop_ahead`), so
the walk through a tree ends after as many steps as the tree has nodes, and its i-th place holds the
i-th node in preorder.

No place is passed over: walking through the subtree at a place ends where climbing leads
(`advanced_size`), by induction on the subtree. So a walk that comes to a place also comes to the
next sibling of that place, and with it to every place that can be reached at all
(`exists_advanced_of_within`).

`Script.walk_visits_nodes_in_preorder` adds what follows for walks that are cut off, for the nodes
of a kind and for the line of a syntax error.
-/

namespace SignalAtlas

namespace Cursor

/-- The place that a cursor comes to after some steps, unless its walk has ended before. -/
def advanced (c : Cursor) : Nat → Option Cursor
  | 0 => some c
  | i + 1 => (c.advanced i).bind advance?

theorem advanced_add (c : Cursor) (i j : Nat) :
    c.advanced (i + j) = (c.advanced i).bind fun d => d.advanced j := by
  induction j with
  | zero => exact (Option.bind_fun_some _).symm
  | succ j ih =>
    rw [← Nat.add_assoc, advanced, ih, Option.bind_assoc]
    rfl

/-! ### One node a step -/

/-- Some steps leave as many nodes behind. -/
theorem drop_ahead (c : Cursor) (i : Nat) :
    c.ahead.drop i = ((c.advanced i).map ahead).getD [] := by
  induction i with
  | zero => rfl
  | succ i ih =>
    rw [← List.tail_drop, ih, advanced]
    cases c.advanced i with
    | none => rfl
    | some d =>
      rw [Option.map_some, Option.getD_some, ahead_eq_cons]
      rfl

theorem ahead_ne_nil (c : Cursor) : c.ahead ≠ [] := by
  rw [ahead_eq_cons]
  exact List.cons_ne_nil _ _

theorem map_node_advanced (c : Cursor) (i : Nat) : (c.advanced i).map node = c.ahead[i]? := by
  rw [← List.head?_drop, drop_ahead]
  cases c.advanced i with
  | none => rfl
  | some d =>
    rw [Option.map_some, Option.map_some, Option.getD_some, ahead_eq_cons]
    rfl

theorem advanced_eq_none_iff {c : Cursor} {i : Nat} :
    c.advanced i = none ↔ c.ahead.length ≤ i := by
  rw [← Option.map_eq_none_iff, map_node_advanced, List.getElem?_eq_none_iff]

/-- A walk comes to no place twice. -/
theorem advanced_inj {c d : Cursor} {i j : Nat} (hi : c.advanced i = some d)
    (hj : c.advanced j = some d) : i = j := by
  have length_of : ∀ {k}, c.advanced k = some d → d.ahead.length = c.ahead.length - k := by
    intro k hk
    have hdrop := c.drop_ahead k
    rw [hk, Option.map_some, Option.getD_some] at hdrop
    rw [← hdrop, List.length_drop]
  have hpos := List.length_pos_of_ne_nil d.ahead_ne_nil
  have hleft := length_of hi
  have hright := length_of hj
  omega

/-! ### Every place -/

theorem advance?_of_firstChild? {c d : Cursor} (h : c.firstChild? = some d) :
    c.advance? = some d := by
  rw [advance?, h]

theorem climb?_of_nextSibling? {c d : Cursor} (h : c.nextSibling? = some d) :
    c.climb? = some d := by
  rw [climb?, h]

theorem climb?_last (n p : Node) (later : List Node) (above : List (Node × List Node)) :
    climb? ⟨n, [], (p, later) :: above⟩ = climb? ⟨p, later, above⟩ := by
  rw [climb?]
  rfl

mutual

/-- Walking through the subtree at a place ends where climbing leads. -/
theorem advanced_size : ∀ (n : Node) (later : List Node) (above : List (Node × List Node)),
    advanced ⟨n, later, above⟩ n.size = climb? ⟨n, later, above⟩
  | .node t [], later, above => rfl
  | .node t (m :: l), later, above => by
    have hfirst : advanced ⟨.node t (m :: l), later, above⟩ 1 =
        some ⟨m, l, (.node t (m :: l), later) :: above⟩ := rfl
    rw [Node.size, Node.forestSize, Nat.add_comm, advanced_add, hfirst, Option.bind_some,
      advanced_add, advanced_size m, bind_climb?_forestSize l]

/-- Climbing from a child and walking through its later siblings ends where climbing from the parent
leads. -/
theorem bind_climb?_forestSize : ∀ (l : List Node) (n p : Node) (later : List Node)
    (above : List (Node × List Node)),
    ((climb? ⟨n, l, (p, later) :: above⟩).bind fun d => d.advanced (Node.forestSize l)) =
      climb? ⟨p, later, above⟩
  | [], n, p, later, above => by
    rw [climb?_last]
    exact Option.bind_fun_some _
  | m :: l, n, p, later, above => by
    have hnext : climb? ⟨n, m :: l, (p, later) :: above⟩ = some ⟨m, l, (p, later) :: above⟩ :=
      climb?_of_nextSibling? rfl
    rw [hnext, Option.bind_some, Node.forestSize, advanced_add, advanced_size m,
      bind_climb?_forestSize l]

end

/-- A place of a tree: one that first children and next siblings lead to from the root. -/
inductive Within (root : Node) : Cursor → Prop
  | root : Within root (atRoot root)
  | firstChild {c d : Cursor} (h : Within root c) (hd : c.firstChild? = some d) : Within root d
  | nextSibling {c d : Cursor} (h : Within root c) (hd : c.nextSibling? = some d) : Within root d

/-- A walk comes to every place of the tree. -/
theorem exists_advanced_of_within {root : Node} {c : Cursor} (h : Within root c) :
    ∃ i, (atRoot root).advanced i = some c := by
  induction h with
  | root => exact ⟨0, rfl⟩
  | firstChild _ hd ih =>
    obtain ⟨i, hi⟩ := ih
    exact ⟨i + 1, by rw [advanced, hi, Option.bind_some, advance?_of_firstChild? hd]⟩
  | @nextSibling c d _ hd ih =>
    obtain ⟨i, hi⟩ := ih
    have hclimb := (advanced_size c.node c.later c.above).trans (climb?_of_nextSibling? hd)
    exact ⟨i + c.node.size, by rw [advanced_add, hi, Option.bind_some, hclimb]⟩

theorem ahead_atRoot (root : Node) : (atRoot root).ahead = root.preorder :=
  List.append_nil _

/-! ### Cutting off -/

theorem upTo_eq_take (goOn : Node → Bool) (l : List Node) :
    upTo goOn l = l.take (l.findIdx (fun n => !goOn n) + 1) := by
  induction l with
  | nil => rfl
  | cons n l ih =>
    rw [upTo, List.findIdx_cons]
    cases hn : goOn n with
    | false => rfl
    | true =>
      rw [if_pos rfl, ih]
      rfl

/-- The last member up to the first faulty one is that one, if there is any. -/
theorem filter_getLast?_upTo (l : List Node) :
    ((upTo (fun n => !n.faulty) l).getLast?.filter Node.faulty) = l.find? Node.faulty := by
  induction l with
  | nil => rfl
  | cons n l ih =>
    rw [upTo, List.find?_cons]
    cases hn : n.faulty with
    | true => simp [hn]
    | false =>
      rw [← ih, Bool.not_false, if_pos rfl, List.getLast?_cons]
      cases (upTo (fun n => !n.faulty) l).getLast? with
      | none => simp [hn]
      | some m => rfl

end Cursor

namespace Node

mutual

theorem length_preorder : ∀ n : Node, n.preorder.length = n.size
  | .node t l => by
    rw [preorder, List.length_cons, size, length_forestPreorder l]

theorem length_forestPreorder : ∀ l : List Node, (forestPreorder l).length = forestSize l
  | [] => rfl
  | n :: l => by
    rw [forestPreorder, List.length_append, forestSize, length_preorder n, length_forestPreorder l]

end

end Node

namespace Script

open Cursor

theorem firstFault?_eq (root : Node) : firstFault? root = root.preorder.find? Node.faulty := by
  rw [firstFault?, Node.visits_eq, filter_getLast?_upTo]

theorem line_syntaxError (source : String) (root : Node) :
    (syntaxError source root).line = ((root.preorder.find? Node.faulty).map Node.line).getD 1 := by
  rw [syntaxError, firstFault?_eq]
  cases root.preorder.find? Node.faulty with
  | none => rfl
  | some n =>
    simp only [Option.map_some, Option.getD_some]
    split <;> rfl

/-- The walk of a cursor through a tree ends after as many steps as there are nodes, has come to
every place of the tree exactly once by then, and to the nodes in preorder. What is visited is cut
off after the first node that ends the visit. So the nodes of a kind come in document order, and a
tree with an error is refused with the line of its first faulty node, or line 1 if there is none. -/
theorem walk_visits_nodes_in_preorder (root : Node) :
    (∀ i, ((atRoot root).advanced i).map Cursor.node = root.preorder[i]?) ∧
      (∀ i, (atRoot root).advanced i = none ↔ root.size ≤ i) ∧
      (∀ c, Within root c → ∃! i, (atRoot root).advanced i = some c) ∧
      (∀ goOn : Node → Bool,
        root.visits goOn = root.preorder.take (root.preorder.findIdx (fun n => !goOn n) + 1)) ∧
      (∀ source kind, nodesOfKind ⟨source, root⟩ kind =
        root.preorder.filter fun n => n.tag.named && !n.tag.extra && n.kind == kind) ∧
      ∀ (g : Grammar) (source : String), g source = ⟨root, true⟩ →
        ∃ reason, parseExact g source = .error
          ⟨((root.preorder.find? fun n => n.tag.error || n.tag.missing).map Node.line).getD 1,
            reason⟩ := by
  refine ⟨fun i => ?_, fun i => ?_, fun c hc => ?_, fun goOn => ?_, fun source kind => ?_,
    fun g source hg => ?_⟩
  · rw [map_node_advanced, ahead_atRoot]
  · rw [advanced_eq_none_iff, ahead_atRoot, Node.length_preorder]
  · obtain ⟨i, hi⟩ := exists_advanced_of_within hc
    exact ⟨i, hi, fun j hj => advanced_inj hj hi⟩
  · rw [Node.visits_eq, upTo_eq_take]
  · rw [nodesOfKind, walk_eq, List.filter_filter]
    refine List.filter_congr fun n _ => ?_
    rw [Bool.and_comm]
    rfl
  · refine ⟨(syntaxError source root).reason, ?_⟩
    have hline := line_syntaxError source root
    rw [parseExact, hg, check, if_pos rfl]
    exact congrArg Except.error (congrArg (SyntaxError.mk · _) hline)

/-- A tree of four nodes. Its walk climbs two levels before it comes to the last node, which is
faulty. -/
theorem walk_visits_nodes_in_preorder_of_four :
    let tag : String → Bool → UInt32 → Tag := fun kind error row =>
      ⟨kind, true, false, error, false, none, 0, 0, row⟩
    let deep : Node := .node (tag "name" false 1) []
    let first : Node := .node (tag "body" false 0) [deep]
    let last : Node := .node (tag "ERROR" true 2) []
    let root : Node := .node (tag "source" false 0) [first, last]
    let place : Cursor := ⟨last, [], [(root, [])]⟩
    let g : Grammar := fun _ => ⟨root, true⟩
    Within root place ∧ g "?" = ⟨root, true⟩ ∧
      (∃! i, (atRoot root).advanced i = some place) ∧ (atRoot root).advanced 4 = none ∧
      (root.visits fun n => n.kind != "name") = [root, first, deep] ∧
      nodesOfKind ⟨"?", root⟩ "name" = [deep] ∧
      ∃ reason, parseExact g "?" = .error ⟨3, reason⟩ := by
  intro tag deep first last root place g
  have hplace : Within root place := .nextSibling (.firstChild .root rfl) rfl
  obtain ⟨-, hend, honce, hvisits, hkind, herror⟩ := walk_visits_nodes_in_preorder root
  exact ⟨hplace, rfl, honce place hplace, (hend 4).2 (by decide), hvisits _, hkind "?" "name",
    herror g "?" rfl⟩

end Script

end SignalAtlas
