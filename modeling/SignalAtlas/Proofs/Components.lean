import Mathlib.Tactic
import Mathlib.Combinatorics.SimpleGraph.Connectivity.Connected
import SignalAtlas.Proofs.Numberings
import SignalAtlas.Proofs.Multigraphs

/-!
# Clusters and components

A node only ever moves to a cluster that it has an edge to, so nodes of one cluster are joined by a
path of edges (`Partition.Joined`), although the node that a label started from may have left it.
Of the gains nothing is used but that they pick one of these clusters
(`Partition.best_mem_candidates`), so this holds over any type of quantities, however these compare.
-/

namespace SignalAtlas

namespace Network

/-- The graph of the edges that count. -/
def linkGraph (nodes : List String) (edges : List (String × String)) : SimpleGraph String :=
  SimpleGraph.fromRel fun a b => (a, b) ∈ kept nodes edges

theorem linkGraph_adj {nodes : List String} {edges : List (String × String)} {a b : String} :
    (linkGraph nodes edges).Adj a b ↔ (a, b) ∈ kept nodes edges ∨ (b, a) ∈ kept nodes edges := by
  rw [linkGraph, SimpleGraph.fromRel_adj]
  constructor
  · exact And.right
  · intro h
    refine ⟨?_, h⟩
    rintro rfl
    simp [kept] at h

/-- Neighbours are joined by an edge that counts. -/
theorem adj_of_mem_neighbours {names : List String} {edges : List (String × String)}
    {u v : Fin names.length} (h : u ∈ (ofNames names edges).neighbours v) :
    (linkGraph names edges).Adj (names.get v) (names.get u) := by
  obtain ⟨e, he, hend⟩ := List.mem_filterMap.1 h
  have hkept : ends names e ∈ kept names edges := by
    rw [← map_ends_edges_ofNames]
    exact List.mem_map_of_mem he
  rw [linkGraph_adj]
  unfold otherEnd? at hend
  split_ifs at hend with h₁ h₂
  · cases hend
    subst h₁
    exact .inl hkept
  · cases hend
    subst h₂
    exact .inr hkept

end Network

namespace Partition

open SignalAtlas.Network

variable {α : Type} [Quantity α]

/-- The search for the best cluster ends with what it started with or with a cluster that it was
given. -/
theorem foldl_best_mem {n : Nat} (g : Fin n → α) (l : List (Fin n)) (b : Fin n × α) :
    let r := l.foldl (fun b c => if b.2 < g c then (c, g c) else b) b
    r.1 = b.1 ∨ r.1 ∈ l := by
  induction l generalizing b with
  | nil => exact .inl rfl
  | cons c l ih =>
    rcases ih (if b.2 < g c then (c, g c) else b) with hstart | hmem
    · by_cases hc : b.2 < g c
      · refine .inr (List.mem_cons.2 (.inl (hstart.trans ?_)))
        rw [if_pos hc]
      · refine .inl (hstart.trans ?_)
        rw [if_neg hc]
    · exact .inr (List.mem_cons_of_mem c hmem)

/-- A node moves only to a cluster that it has an edge to. -/
theorem best_mem_candidates {n : Nat} {net : Network n} {p : Partition n} {v : Fin n}
    (h : best α net p v ≠ p.labelOf v) : best α net p v ∈ candidates net p v := by
  rcases foldl_best_mem (gain α net p v) (candidates net p v)
    (p.labelOf v, Quantity.threshold) with hhome | hmem
  · exact absurd hhome h
  · exact hmem

variable {names : List String} {edges : List (String × String)}

/-- Nodes with the same label are joined by a path of edges. -/
def Joined (edges : List (String × String)) (p : Partition names.length) : Prop :=
  ∀ u v, p.labelOf u = p.labelOf v → (linkGraph names edges).Reachable (names.get u) (names.get v)

theorem joined_singletons : Joined edges (singletons (ofNames names edges)) := by
  intro u v h
  rw [labelOf_singletons] at h
  cases h
  exact .refl _

/-- Moving a node to a cluster that it has an edge to keeps the nodes of each cluster joined. -/
theorem Joined.move {p : Partition names.length} (hp : Joined edges p) {v c : Fin names.length}
    (hc : c ∈ candidates (ofNames names edges) p v) :
    Joined edges (Partition.move (ofNames names edges) p v c) := by
  obtain ⟨w, hw, hlabel⟩ := List.countP_pos_iff.1 (mem_candidates.1 hc).2
  rw [decide_eq_true_eq] at hlabel
  have hedge : (linkGraph names edges).Reachable (names.get v) (names.get w) :=
    (adj_of_mem_neighbours hw).reachable
  -- whoever has the label `c` is joined to the neighbour `w` that has it, and so to `v`
  have hjoin : ∀ u, p.labelOf u = c →
      (linkGraph names edges).Reachable (names.get v) (names.get u) := by
    intro u hu
    exact hedge.trans (hp w u (hlabel.trans hu.symm))
  intro x y hxy
  rw [labelOf_move] at hxy
  by_cases hx : x = v
  · subst hx
    by_cases hy : y = x
    · rw [hy]
    · rw [Function.update_self, Function.update_of_ne hy] at hxy
      exact hjoin y hxy.symm
  · by_cases hy : y = v
    · subst hy
      rw [Function.update_self, Function.update_of_ne hx] at hxy
      exact (hjoin x hxy).symm
    · rw [Function.update_of_ne hx, Function.update_of_ne hy] at hxy
      exact hp x y hxy

end Partition

namespace Clustering

open SignalAtlas.Network

/-- A name without edges that count is joined to no other name. -/
theorem eq_of_reachable {nodes : List String} {edges : List (String × String)} {a b : String}
    (h : ∀ e ∈ kept nodes edges, e.1 ≠ a ∧ e.2 ≠ a) (hab : (linkGraph nodes edges).Reachable a b) :
    b = a := by
  obtain ⟨walk⟩ := hab
  cases walk with
  | nil => rfl
  | cons hadj _ =>
    rcases linkGraph_adj.1 hadj with he | he
    · exact absurd rfl (h _ he).1
    · exact absurd rfl (h _ he).2

/-- Names in one cluster are joined by a path of edges between different listed names, however the
quantities compare, and a name without such edges has a cluster for itself. -/
theorem clusters_lie_in_components (α : Type) [Quantity α] (passes : Nat) (nodes : List String)
    (edges : List (String × String)) :
    (∀ i group, (detect α passes nodes edges).clusters.get? i = some group →
      ∀ a ∈ group, ∀ b ∈ group, (linkGraph nodes edges).Reachable a b) ∧
    ∀ a ∈ nodes, (∀ e ∈ kept nodes edges, e.1 ≠ a ∧ e.2 ≠ a) →
      ∃ i, (detect α passes nodes edges).clusterOf.get? a = some i ∧
        (detect α passes nodes edges).clusters.get? i = some [a] := by
  have hnames : nodes.eraseDups.Nodup := nodup_eraseDups nodes
  obtain ⟨p, q, hp, hdetect⟩ := exists_detect_eq α passes nodes edges (Partition.Joined edges)
    Partition.joined_singletons fun p v hp hv => hp.move (Partition.best_mem_candidates hv)
  have hgraph : linkGraph nodes.eraseDups edges = linkGraph nodes edges := by
    rw [linkGraph, kept_eraseDups, linkGraph]
  have hjoined : ∀ i, ∀ a ∈ memberNames p i, ∀ b ∈ memberNames p i,
      (linkGraph nodes edges).Reachable a b := by
    intro i a ha b hb
    obtain ⟨u, rfl, hu⟩ := mem_memberNames.1 ha
    obtain ⟨v, rfl, hv⟩ := mem_memberNames.1 hb
    rw [← hgraph]
    exact hp u v (p.numberOf_eq_iff.1 (hu.trans hv.symm))
  rw [hdetect]
  constructor
  · intro i group h
    obtain ⟨-, rfl⟩ := memberNames_of_get? h
    exact hjoined i
  · intro a ha halone
    obtain ⟨v, rfl⟩ := List.mem_iff_get.1 (List.mem_eraseDups.2 ha)
    have hmem : nodes.eraseDups.get v ∈ memberNames p (p.numberOf v) :=
      mem_memberNames.2 ⟨v, rfl, rfl⟩
    refine ⟨p.numberOf v, get?_clusterOf_assemble_get hnames p q v, ?_⟩
    rw [get?_clusters_assemble, if_pos (p.numberOf_lt v)]
    congr 1
    refine (pairwise_memberNames p _).eq_of_mem_iff (List.pairwise_singleton _ _) fun b => ?_
    rw [List.mem_singleton]
    constructor
    · intro hb
      exact eq_of_reachable halone (hjoined _ _ hmem b hb)
    · rintro rfl
      exact hmem

theorem clusters_lie_in_components_of_pair_and_loner :
    let nodes := ["a", "b", "c"]
    let edges := [("b", "a"), ("c", "c"), ("c", "d")]
    (detect Rat defaultPasses nodes edges).clusters.get? 0 = some ["a", "b"] ∧
    (linkGraph nodes edges).Reachable "a" "b" ∧
    (∀ e ∈ kept nodes edges, e.1 ≠ "c" ∧ e.2 ≠ "c") ∧
    ∃ i, (detect Rat defaultPasses nodes edges).clusterOf.get? "c" = some i ∧
      (detect Rat defaultPasses nodes edges).clusters.get? i = some ["c"] := by
  intro nodes edges
  have hpair : (detect Rat defaultPasses nodes edges).clusters.get? 0 = some ["a", "b"] := by
    decide +kernel
  have halone : ∀ e ∈ kept nodes edges, e.1 ≠ "c" ∧ e.2 ≠ "c" := by decide +kernel
  obtain ⟨hjoined, hloner⟩ := clusters_lie_in_components Rat defaultPasses nodes edges
  exact ⟨hpair, hjoined 0 _ hpair "a" (by simp) "b" (by simp), halone,
    hloner "c" (by simp [nodes]) halone⟩

end Clustering

end SignalAtlas
