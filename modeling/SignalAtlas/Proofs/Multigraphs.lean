import Mathlib.Tactic
import Mathlib.Data.Sym.Sym2
import SignalAtlas.Proofs.Ascent

/-!
# Edges as an undirected multigraph

Only the edges between two different listed names count (`Network.kept`), and the network of the
names has exactly these (`Network.map_ends_edges_ofNames`).

Of the edges of a network only counts are ever used: how many lead from a node to a cluster, how
many a node has, how many lie inside a cluster, and how many there are. The one list that is read
in order, that of the clusters a node is linked to, is sorted first. So networks with the same
undirected edges (`Network.SameEdges`) are treated alike from the first visit to the last
(`Network.SameEdges.settle`), over any type of quantities.
-/

namespace SignalAtlas

/-! ### Undirected edges -/

/-- Edges without their directions. -/
def undirected {β : Type} (es : List (β × β)) : List (Sym2 β) := es.map fun e => s(e.1, e.2)

section Undirected

variable {β γ : Type} {es es' : List (β × β)} (h : (undirected es).Perm (undirected es'))

include h

theorem perm_filterMap_of_undirected {f : β × β → Option γ} (hf : ∀ a b, f (a, b) = f (b, a)) :
    (es.filterMap f).Perm (es'.filterMap f) := by
  let g : Sym2 β → Option γ := Sym2.lift ⟨fun a b => f (a, b), hf⟩
  have hg : ∀ l : List (β × β), (undirected l).filterMap g = l.filterMap f := by
    intro l
    rw [undirected, List.filterMap_map]
    rfl
  rw [← hg es, ← hg es']
  exact h.filterMap g

theorem countP_eq_of_undirected {s : β × β → Bool} (hs : ∀ a b, s (a, b) = s (b, a)) :
    es.countP s = es'.countP s := by
  let t : Sym2 β → Bool := Sym2.lift ⟨fun a b => s (a, b), hs⟩
  have ht : ∀ l : List (β × β), (undirected l).countP t = l.countP s := by
    intro l
    rw [undirected, List.countP_map]
    rfl
  rw [← ht es, ← ht es']
  exact h.countP_eq t

end Undirected

namespace Network

/-! ### Edges that count -/

/-- The edges between two different listed names. -/
def kept (nodes : List String) (edges : List (String × String)) : List (String × String) :=
  edges.filter fun e => e.1 ≠ e.2 ∧ e.1 ∈ nodes ∧ e.2 ∈ nodes

theorem kept_eraseDups (nodes : List String) (edges : List (String × String)) :
    kept nodes.eraseDups edges = kept nodes edges := by
  simp only [kept, List.mem_eraseDups]

theorem number?_eq_some {names : List String} {a : String} {v : Fin names.length}
    (h : number? names a = some v) : names.get v = a :=
  (List.finIdxOf?_eq_some_iff.1 h).1

theorem exists_number?_eq {names : List String} {a : String} (h : a ∈ names) :
    ∃ v, number? names a = some v := by
  rw [← Option.ne_none_iff_exists', number?, ne_eq, List.finIdxOf?_eq_none_iff, not_not]
  exact h

/-- The names at the ends of an edge. -/
def ends (names : List String) (e : Fin names.length × Fin names.length) : String × String :=
  (names.get e.1, names.get e.2)

theorem map_ends_edge? (names : List String) (e : String × String) :
    (edge? names e).map (ends names) =
      if e.1 ≠ e.2 ∧ e.1 ∈ names ∧ e.2 ∈ names then some e else none := by
  unfold edge?
  split
  · next a b ha hb =>
    have ha' : names.get a = e.1 := number?_eq_some ha
    have hb' : names.get b = e.2 := number?_eq_some hb
    have hmem : e.1 ∈ names ∧ e.2 ∈ names :=
      ⟨ha' ▸ List.get_mem names a, hb' ▸ List.get_mem names b⟩
    by_cases hab : a = b
    · have heq : e.1 = e.2 := by rw [← ha', ← hb', hab]
      simp [hab, heq]
    · have hne : e.1 ≠ e.2 := by
        intro heq
        rw [heq, hb] at ha
        exact hab (Option.some.inj ha).symm
      rw [if_neg hab, if_pos ⟨hne, hmem⟩, Option.map_some, ends, ha', hb']
  · next hnone =>
    rw [if_neg]
    · rfl
    · rintro ⟨-, h₁, h₂⟩
      obtain ⟨a, ha⟩ := exists_number?_eq h₁
      obtain ⟨b, hb⟩ := exists_number?_eq h₂
      exact hnone a b ha hb

/-- The network of distinct names has the edges between two of them. -/
theorem map_ends_edges_ofNames (names : List String) (edges : List (String × String)) :
    (ofNames names edges).edges.map (ends names) = kept names edges := by
  rw [ofNames, List.map_filterMap, kept, ← List.filterMap_eq_filter]
  simp only [map_ends_edge?, Option.guard_def, decide_eq_true_eq]

/-! ### Networks with the same edges -/

variable {n : Nat} {α : Type} [Quantity α]

/-- Networks whose edges differ only in their order and their directions. -/
def SameEdges (net net' : Network n) : Prop :=
  (undirected net.edges).Perm (undirected net'.edges)

theorem sameEdges_ofNames {names : List String} (hnames : names.Nodup)
    {edges edges' : List (String × String)}
    (h : (undirected (kept names edges)).Perm (undirected (kept names edges'))) :
    (ofNames names edges).SameEdges (ofNames names edges') := by
  have hends : ∀ es : List (Fin names.length × Fin names.length),
      undirected (es.map (ends names)) = (undirected es).map (Sym2.map names.get) := by
    intro es
    simp [undirected, ends]
  have hget : Function.Injective names.get := List.nodup_iff_injective_get.1 hnames
  rw [← map_ends_edges_ofNames, ← map_ends_edges_ofNames, hends, hends] at h
  exact (List.map_perm_map_iff (Sym2.map.injective hget)).1 h

namespace SameEdges

variable {net net' : Network n} (h : net.SameEdges net')

include h

theorem neighbours (v : Fin n) : (net.neighbours v).Perm (net'.neighbours v) := by
  refine perm_filterMap_of_undirected h fun a b => ?_
  unfold otherEnd?
  by_cases ha : a = v
  · by_cases hb : b = v
    · simp [ha, hb]
    · simp [ha, hb]
  · simp [ha]

theorem degree (v : Fin n) : net.degree v = net'.degree v := (h.neighbours v).length_eq

theorem size : net.size = net'.size := by
  have hlength := h.length_eq
  rwa [undirected, undirected, List.length_map, List.length_map] at hlength

theorem linksTo (p : Partition n) (v c : Fin n) :
    Partition.linksTo net p v c = Partition.linksTo net' p v c :=
  (h.neighbours v).countP_eq _

/-- Sorting forgets in which order the neighbours of a node came. -/
theorem candidates (p : Partition n) (v : Fin n) :
    Partition.candidates net p v = Partition.candidates net' p v := by
  unfold Partition.candidates
  rw [SortedMap.sortedDistinct_congr fun c => ((h.neighbours v).map _).mem_iff]

theorem gain (p : Partition n) (v c : Fin n) :
    Partition.gain α net p v c = Partition.gain α net' p v c := by
  unfold Partition.gain
  simp only [h.linksTo, h.size, h.degree]

theorem best (p : Partition n) (v : Fin n) :
    Partition.best α net p v = Partition.best α net' p v := by
  unfold Partition.best
  simp only [h.candidates, h.gain]

theorem visit : Partition.visit α net = Partition.visit α net' := by
  funext s v
  unfold Partition.visit Partition.move
  simp only [h.best, h.degree]

theorem settle (passes : Nat) (p : Partition n) :
    Partition.settle α net passes p = Partition.settle α net' passes p := by
  have hpass : ∀ p, Partition.pass α net p = Partition.pass α net' p := by
    intro p
    unfold Partition.pass
    rw [h.visit]
  induction passes generalizing p with
  | zero => rfl
  | succ k ih => rw [Partition.settle_eq, Partition.settle_eq, hpass, ih]

theorem singletons : Partition.singletons net = Partition.singletons net' := by
  unfold Partition.singletons
  rw [funext h.degree]

theorem modularity (p : Partition n) :
    Partition.modularity α net p = Partition.modularity α net' p := by
  have hinside : ∀ c, Partition.inside net p c = Partition.inside net' p c := by
    intro c
    exact countP_eq_of_undirected h fun a b => by simp [and_comm]
  have hshare : Partition.share α net p = Partition.share α net' p := by
    funext c
    unfold Partition.share
    simp only [hinside, h.size]
  unfold Partition.modularity
  rw [hshare]

end SameEdges

end Network

namespace Clustering

open SignalAtlas.Network

variable {α : Type} [Quantity α]

theorem detect_congr {nodes : List String} {edges edges' : List (String × String)}
    (h : (ofNames nodes.eraseDups edges).SameEdges (ofNames nodes.eraseDups edges'))
    (passes : Nat) : detect α passes nodes edges = detect α passes nodes edges' := by
  unfold detect
  simp only [h.size, h.singletons, h.settle, h.modularity]

theorem detect_nodes_congr {nodes nodes' : List String} (h : nodes.eraseDups = nodes'.eraseDups)
    (passes : Nat) (edges : List (String × String)) :
    detect α passes nodes edges = detect α passes nodes' edges := by
  unfold detect
  rw [h]

theorem eraseDups_repeated {before : List String} {a : String} (h : a ∈ before)
    (after : List String) : (before ++ a :: after).eraseDups = (before ++ after).eraseDups := by
  rw [List.eraseDups_append, List.eraseDups_append]
  simp [List.removeAll, h]

/-- What is detected depends on the edges only as an undirected multigraph: dropping edges that do
not count, reordering edges and swapping their ends changes nothing, and neither does repeating a
name. -/
theorem detection_sees_undirected_multigraph (α : Type) [Quantity α] (passes : Nat) :
    (∀ nodes edges edges',
      (undirected (kept nodes edges)).Perm (undirected (kept nodes edges')) →
        detect α passes nodes edges = detect α passes nodes edges') ∧
    ∀ before a after edges, a ∈ before →
      detect α passes (before ++ a :: after) edges = detect α passes (before ++ after) edges := by
  constructor
  · intro nodes edges edges' h
    rw [← kept_eraseDups nodes edges, ← kept_eraseDups nodes edges'] at h
    exact detect_congr (sameEdges_ofNames (nodup_eraseDups nodes) h) passes
  · intro before a after edges h
    exact detect_nodes_congr (eraseDups_repeated h after) passes edges

theorem detection_sees_undirected_multigraph_of_three_edges :
    let nodes := ["a", "b", "c"]
    let edges := [("a", "b"), ("b", "c"), ("b", "c"), ("c", "c")]
    let edges' := [("c", "b"), ("x", "a"), ("b", "a"), ("b", "c")]
    (undirected (kept nodes edges)).Perm (undirected (kept nodes edges')) ∧
    detect Float defaultPasses nodes edges = detect Float defaultPasses nodes edges' ∧
    "a" ∈ ["a", "b"] ∧
    detect Float defaultPasses (["a", "b"] ++ "a" :: ["c"]) edges =
      detect Float defaultPasses (["a", "b"] ++ ["c"]) edges := by
  intro nodes edges edges'
  have hedges : (undirected (kept nodes edges)).Perm (undirected (kept nodes edges')) := by
    decide +kernel
  have hlisted : "a" ∈ ["a", "b"] := by decide
  obtain ⟨hsame, hrepeated⟩ := detection_sees_undirected_multigraph Float defaultPasses
  exact ⟨hedges, hsame nodes edges edges' hedges, hlisted, hrepeated _ _ _ edges hlisted⟩

end Clustering

end SignalAtlas
