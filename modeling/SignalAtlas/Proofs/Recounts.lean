import Mathlib.Tactic
import SignalAtlas.Proofs.Numberings
import SignalAtlas.Proofs.Multigraphs

/-!
# The modularity counted afresh

Detection keeps the weights of its labels up to date move by move, and adds up the shares of the
labels that have a weight. What it reports is the modularity of the clusters that it reports,
counted from the names in them and the edges that count (`Network.modularityOf`), without labels,
nodes or weights.

The two sides meet at the numbers of the nodes: these part the nodes as the labels do
(`Network.quality_congr`), and for each number the edges inside and the degrees are those of the
names of its cluster (`Clustering.inner_ofNames`, `Clustering.mass_ofNames`).
-/

namespace SignalAtlas

open Finset

namespace Network

/-- The number of edges at a name. -/
def edgesAt (es : List (String × String)) (a : String) : Nat :=
  es.countP fun e => e.1 = a ∨ e.2 = a

/-- The number of edges between names of a group. -/
def edgesWithin (es : List (String × String)) (group : List String) : Nat :=
  es.countP fun e => e.1 ∈ group ∧ e.2 ∈ group

/-- What a group of names adds to the modularity: its part of the edges, less the square of its part
of their ends. -/
def shareOf (es : List (String × String)) (group : List String) : ℚ :=
  (edgesWithin es group : ℚ) / es.length -
    (((group.map (edgesAt es)).sum : ℕ) / (2 * es.length : ℚ)) ^ 2

/-- The modularity of groups of names. -/
def modularityOf (es : List (String × String)) (groups : List (List String)) : ℚ :=
  (groups.map (shareOf es)).sum

theorem degree_eq_countP {n : Nat} (net : Network n) (v : Fin n) :
    net.degree v = net.edges.countP fun e => e.1 = v ∨ e.2 = v := by
  obtain ⟨es⟩ := net
  induction es with
  | nil => rfl
  | cons e es ih =>
    rw [degree_cons, ih, List.countP_cons]
    simp

theorem size_ofNames (names : List String) (edges : List (String × String)) :
    (ofNames names edges).size = (kept names edges).length := by
  rw [← map_ends_edges_ofNames, List.length_map]
  rfl

/-- The degree of a node is the number of edges at its name. -/
theorem degree_ofNames {names : List String} (hnames : names.Nodup)
    (edges : List (String × String)) (v : Fin names.length) :
    (ofNames names edges).degree v = edgesAt (kept names edges) (names.get v) := by
  have hget : Function.Injective names.get := List.nodup_iff_injective_get.1 hnames
  rw [degree_eq_countP, edgesAt, ← map_ends_edges_ofNames, List.countP_map]
  simp only [Function.comp_def, ends, hget.eq_iff]

end Network

namespace Clustering

open SignalAtlas.Network SignalAtlas.Partition

section Names

variable {names : List String} (hnames : names.Nodup) (edges : List (String × String))
  (p : Partition names.length) (i : Nat)

include hnames

theorem get_mem_memberNames {v : Fin names.length} :
    names.get v ∈ memberNames p i ↔ p.numberOf v = i := by
  rw [mem_memberNames]
  constructor
  · rintro ⟨u, hu, hi⟩
    rwa [← List.nodup_iff_injective_get.1 hnames hu]
  · intro hi
    exact ⟨v, rfl, hi⟩

/-- The edges inside a cluster are those between its names. -/
theorem inner_ofNames : (ofNames names edges).inner p.numberOf i =
    edgesWithin (kept names edges) (memberNames p i) := by
  rw [Network.inner, edgesWithin, ← map_ends_edges_ofNames, List.countP_map]
  simp only [Function.comp_def, ends, get_mem_memberNames hnames]

/-- The mass of a cluster adds up the edges at its names. -/
theorem mass_ofNames : (ofNames names edges).mass p.numberOf i =
    ((memberNames p i).map (edgesAt (kept names edges))).sum := by
  have hget : Function.Injective names.get := List.nodup_iff_injective_get.1 hnames
  have hmembers : (memberNames p i).toFinset =
      (univ.filter fun v => p.numberOf v = i).image names.get := by
    ext a
    rw [List.mem_toFinset, mem_memberNames]
    simp [and_comm]
  have hnodup : (memberNames p i).Nodup := (pairwise_memberNames p i).imp Std.ne_of_lt
  rw [← List.sum_toFinset _ hnodup, hmembers, sum_image fun _ _ _ _ h => hget h]
  simp only [mass, degree_ofNames hnames]

/-- The modularity of numbered nodes is that of the groups of their names. -/
theorem quality_numberOf : (ofNames names edges).quality p.numberOf =
    modularityOf (kept names edges) ((List.range p.usedLabels.length).map (memberNames p)) := by
  have hnumber : ∀ v, p.numberOf v ∈ range p.usedLabels.length :=
    fun v => mem_range.2 (p.numberOf_lt v)
  rw [quality_eq_sum hnumber, modularityOf, List.map_map, ← List.sum_toFinset _ List.nodup_range,
    List.toFinset_range]
  simp only [Function.comp_def, shareOf, inner_ofNames hnames, mass_ofNames hnames, size_ofNames]

end Names

theorem modularity_detect_of_kept {nodes : List String} {edges : List (String × String)}
    (h : kept nodes edges ≠ []) (passes : Nat) :
    (detect Rat passes nodes edges).modularity =
      modularityOf (kept nodes edges) (detect Rat passes nodes edges).clusters.values := by
  let net := Network.ofNames nodes.eraseDups edges
  let p := settle Rat net passes (singletons net)
  have hsize : 0 < net.size := by
    rw [size_ofNames, kept_eraseDups]
    exact List.length_pos_of_ne_nil h
  have hvalues : (detect Rat passes nodes edges).clusters.values =
      (List.range p.usedLabels.length).map (memberNames p) := by
    rw [detect_eq hsize, SortedMap.values, entries_clusters_assemble, List.map_map]
    rfl
  calc (detect Rat passes nodes edges).modularity
    _ = net.quality p.labelOf := modularity_detect hsize passes
    _ = net.quality p.numberOf := Network.quality_congr fun _ _ => p.numberOf_eq_iff.symm
    _ = modularityOf (kept nodes edges) (detect Rat passes nodes edges).clusters.values := by
      rw [quality_numberOf (nodup_eraseDups nodes), kept_eraseDups, hvalues]

/-- The modularity that is reported is that of the reported clusters, counted from their names and
the edges that count, and at every step the weight of a label is the sum of the degrees of the
nodes that have it. -/
theorem reported_modularity_is_that_of_clusters (passes : Nat) (nodes : List String)
    (edges : List (String × String)) :
    (detect Rat passes nodes edges).modularity =
      (if kept nodes edges = [] then 0
        else modularityOf (kept nodes edges) (detect Rat passes nodes edges).clusters.values) ∧
    ∀ (k : Nat) (visited : List (Fin nodes.eraseDups.length)) (c : Fin nodes.eraseDups.length),
      let net := Network.ofNames nodes.eraseDups edges
      let p := (visited.foldl (visit Rat net) (settle Rat net k (singletons net), false)).1
      p.weightOf c = ∑ v with p.labelOf v = c, net.degree v ∧
        ((∀ v, p.labelOf v ≠ c) → p.weightOf c = 0) := by
  constructor
  · by_cases hkept : kept nodes edges = []
    · have hsize : (Network.ofNames nodes.eraseDups edges).size = 0 := by
        rw [size_ofNames, kept_eraseDups, hkept]
        rfl
      rw [if_pos hkept, detect, if_pos hsize]
      rfl
    · rw [if_neg hkept]
      exact modularity_detect_of_kept hkept passes
  · intro k visited c net p
    have hweight : p.weightOf c = ∑ v with p.labelOf v = c, net.degree v :=
      weighed_visits visited (weighed_settle k) false c
    refine ⟨hweight, fun hunused => ?_⟩
    rw [hweight]
    simp [hunused]

theorem reported_modularity_is_that_of_clusters_with_double_edge :
    let nodes := ["a", "b", "c"]
    let edges := [("a", "b"), ("b", "a"), ("b", "c"), ("c", "c")]
    let net := Network.ofNames nodes.eraseDups edges
    kept nodes edges ≠ [] ∧
    (detect Rat defaultPasses nodes edges).modularity =
      modularityOf (kept nodes edges) (detect Rat defaultPasses nodes edges).clusters.values ∧
    ∃ v c, let p := ([v].foldl (visit Rat net) (settle Rat net 0 (singletons net), false)).1
      (∀ u, p.labelOf u ≠ c) ∧ p.weightOf c = 0 := by
  intro nodes edges net
  have hkept : kept nodes edges ≠ [] := by decide +kernel
  obtain ⟨hmodularity, hweight⟩ :=
    reported_modularity_is_that_of_clusters defaultPasses nodes edges
  rw [if_neg hkept] at hmodularity
  let v : Fin nodes.eraseDups.length := ⟨0, by decide +kernel⟩
  have hleft : ∀ u, ([v].foldl (visit Rat net)
      (settle Rat net 0 (singletons net), false)).1.labelOf u ≠ v := by
    decide +kernel
  exact ⟨hkept, hmodularity, v, v, hleft, (hweight 0 [v] v).2 hleft⟩

end Clustering

end SignalAtlas
