import Mathlib.Tactic
import SignalAtlas.Graph.Topology
import SignalAtlas.Proofs.Building
import SignalAtlas.Proofs.Recounts

/-!
# Files linked by signals

`Graph.topology` goes through the signals one by one, pairs the files that produce a signal with
those that consume it, and sorts what it has collected. What comes out does not show any of this:
the nodes are the files of all facts, and two files are linked exactly if a signal leads from one of
them to the other (`Graph.Linked`), in either direction.

A file may stand on both sides of a signal. It is then linked to all others that do, and never to
itself.
-/

namespace SignalAtlas

namespace Graph

variable {g : Graph} {name file a b : String}

/-! ### Producers and consumers -/

/-- A file declares or emits a signal. -/
def Produces (g : Graph) (file name : String) : Prop :=
  (∃ d ∈ g.definitionsOf name, d.filePath = file) ∨ ∃ e ∈ g.emissionsOf name, e.filePath = file

/-- A file connects to a signal. -/
def Consumes (g : Graph) (file name : String) : Prop :=
  ∃ c ∈ g.connectionsOf name, c.filePath = file

/-- Some signal is produced by one of two files and consumed by the other one. -/
def Linked (g : Graph) (a b : String) : Prop :=
  ∃ name, g.Produces a name ∧ g.Consumes b name ∨ g.Produces b name ∧ g.Consumes a name

theorem mem_producers : file ∈ g.producers name ↔ g.Produces file name := by
  rw [producers, SortedMap.mem_sortedDistinct, List.mem_append, List.mem_map, List.mem_map]
  rfl

theorem mem_consumers : file ∈ g.consumers name ↔ g.Consumes file name := by
  rw [consumers, SortedMap.mem_sortedDistinct, List.mem_map]
  rfl

/-- Something in the bucket of a name shows that the name is bound. -/
theorem mem_keys_of_mem_getD {β : Type} {m : SortedMap String (List β)} {x : β}
    (h : x ∈ m.getD name []) : name ∈ m.keys := by
  rw [SortedMap.getD] at h
  cases hget : m.get? name with
  | none => rw [hget] at h; cases h
  | some bucket => exact SortedMap.mem_keys.2 ⟨bucket, hget⟩

theorem exists_mem_getD_iff {β : Type} {m : SortedMap String (List β)} {holds : β → Prop} :
    (∃ name, ∃ x ∈ m.getD name [], holds x) ↔ ∃ x ∈ m.values.flatten, holds x := by
  constructor
  · rintro ⟨name, x, hx, h⟩
    obtain ⟨bucket, hget⟩ := SortedMap.mem_keys.1 (mem_keys_of_mem_getD hx)
    rw [SortedMap.getD, hget] at hx
    exact ⟨x, List.mem_flatten.2 ⟨bucket, SortedMap.mem_values.2 ⟨name, hget⟩, hx⟩, h⟩
  · rintro ⟨x, hx, h⟩
    obtain ⟨bucket, hbucket, hx⟩ := List.mem_flatten.1 hx
    obtain ⟨name, hget⟩ := SortedMap.mem_values.1 hbucket
    refine ⟨name, x, ?_, h⟩
    rw [SortedMap.getD, hget]
    exact hx

theorem Produces.mem_signalNames (h : g.Produces file name) : name ∈ g.signalNames := by
  rw [Graph.mem_signalNames]
  rcases h with ⟨d, hd, -⟩ | ⟨e, he, -⟩
  · exact .inl (mem_keys_of_mem_getD hd)
  · exact .inr (.inl (mem_keys_of_mem_getD he))

theorem Consumes.mem_signalNames (h : g.Consumes file name) : name ∈ g.signalNames := by
  rw [Graph.mem_signalNames]
  obtain ⟨c, hc, -⟩ := h
  exact .inr (.inr (mem_keys_of_mem_getD hc))

/-- The files that take part in some signal are those of the facts. -/
theorem exists_takesPart_iff :
    (∃ name, g.Produces file name ∨ g.Consumes file name) ↔
      ∃ fact ∈ g.facts, fact.filePath = file := by
  have hfacts : (∃ fact ∈ g.facts, fact.filePath = file) ↔
      (∃ d ∈ g.definitions.values.flatten, d.filePath = file) ∨
        (∃ e ∈ g.emissions.values.flatten, e.filePath = file) ∨
          ∃ c ∈ g.connections.values.flatten, c.filePath = file := by
    simp only [facts, List.mem_append, List.mem_map, or_assoc, or_and_right, exists_or]
    simp [Fact.filePath]
  rw [hfacts]
  simp only [Produces, Consumes, definitionsOf, emissionsOf, connectionsOf, exists_or,
    exists_mem_getD_iff, or_assoc]

/-! ### Nodes and edges -/

theorem mem_nodes_topology :
    file ∈ g.topology.nodes ↔ ∃ fact ∈ g.facts, fact.filePath = file := by
  rw [← exists_takesPart_iff]
  show file ∈ SortedMap.sortedDistinct _ ↔ _
  simp only [SortedMap.mem_sortedDistinct, List.mem_flatMap, List.mem_append, mem_producers,
    mem_consumers]
  constructor
  · rintro ⟨name, -, h⟩
    exact ⟨name, h⟩
  · rintro ⟨name, h⟩
    exact ⟨name, h.elim Produces.mem_signalNames Consumes.mem_signalNames, h⟩

theorem ordered_eq_iff {p c : String} (hne : p ≠ c) :
    ordered p c = (a, b) ↔ a < b ∧ (p = a ∧ c = b ∨ p = b ∧ c = a) := by
  unfold ordered
  split
  · next hlt =>
    rw [Prod.mk.injEq]
    constructor
    · rintro ⟨rfl, rfl⟩
      exact ⟨hlt, .inr ⟨rfl, rfl⟩⟩
    · rintro ⟨hab, ⟨rfl, rfl⟩ | ⟨rfl, rfl⟩⟩
      · exact absurd hlt (String.lt_asymm hab)
      · exact ⟨rfl, rfl⟩
  · next hlt =>
    rw [Prod.mk.injEq]
    constructor
    · rintro ⟨rfl, rfl⟩
      exact ⟨Std.lt_of_le_of_ne (String.not_lt.1 hlt) hne, .inl ⟨rfl, rfl⟩⟩
    · rintro ⟨hab, ⟨rfl, rfl⟩ | ⟨rfl, rfl⟩⟩
      · exact ⟨rfl, rfl⟩
      · exact absurd hab hlt

theorem mem_links : (a, b) ∈ g.links name ↔
    a < b ∧ (g.Produces a name ∧ g.Consumes b name ∨ g.Produces b name ∧ g.Consumes a name) := by
  simp only [links, List.mem_flatMap, List.mem_map, List.mem_filter, mem_producers, mem_consumers,
    decide_eq_true_eq]
  constructor
  · rintro ⟨p, hp, c, ⟨hc, hne⟩, heq⟩
    obtain ⟨hlt, ⟨rfl, rfl⟩ | ⟨rfl, rfl⟩⟩ := (ordered_eq_iff hne).1 heq
    · exact ⟨hlt, .inl ⟨hp, hc⟩⟩
    · exact ⟨hlt, .inr ⟨hp, hc⟩⟩
  · rintro ⟨hlt, ⟨hp, hc⟩ | ⟨hp, hc⟩⟩
    · have hne : a ≠ b := fun h => String.lt_irrefl b (h ▸ hlt)
      exact ⟨a, hp, b, ⟨hc, hne⟩, (ordered_eq_iff hne).2 ⟨hlt, .inl ⟨rfl, rfl⟩⟩⟩
    · have hne : b ≠ a := fun h => String.lt_irrefl b (h ▸ hlt)
      exact ⟨b, hp, a, ⟨hc, hne⟩, (ordered_eq_iff hne).2 ⟨hlt, .inr ⟨rfl, rfl⟩⟩⟩

theorem mem_edges_topology : (a, b) ∈ g.topology.edges ↔ a < b ∧ g.Linked a b := by
  show (a, b) ∈ SortedMap.sortedDistinct _ ↔ _
  rw [SortedMap.mem_sortedDistinct]
  simp only [List.mem_flatMap, mem_links, Linked]
  constructor
  · rintro ⟨name, -, hlt, h⟩
    exact ⟨hlt, name, h⟩
  · rintro ⟨hlt, name, h⟩
    exact ⟨name, h.elim (fun h => h.1.mem_signalNames) (fun h => h.1.mem_signalNames), hlt, h⟩

theorem pairwise_edges_topology (g : Graph) :
    g.topology.edges.Pairwise fun e f => e.1 < f.1 ∨ e.1 = f.1 ∧ e.2 < f.2 := by
  refine (SortedMap.pairwise_sortedDistinct _).imp fun {e f} h => ?_
  have h' : (compare e.1 f.1).then (compare e.2 f.2) = .lt := h
  rw [Ordering.then_eq_lt, compare_text_eq_lt, compare_text_eq_lt,
    Std.LawfulEqOrd.compare_eq_iff_eq] at h'
  exact h'

theorem pairwise_nodes_topology (g : Graph) :
    g.topology.nodes.Pairwise fun a b => a < b :=
  (SortedMap.pairwise_sortedDistinct _).imp compare_text_eq_lt.1

/-- The ends of a link take part in a signal. -/
theorem mem_nodes_of_mem_edges (h : (a, b) ∈ g.topology.edges) :
    a ∈ g.topology.nodes ∧ b ∈ g.topology.nodes := by
  simp only [mem_nodes_topology, ← exists_takesPart_iff]
  obtain ⟨-, name, ⟨ha, hb⟩ | ⟨hb, ha⟩⟩ := mem_edges_topology.1 h
  · exact ⟨⟨name, .inl ha⟩, ⟨name, .inr hb⟩⟩
  · exact ⟨⟨name, .inr ha⟩, ⟨name, .inl hb⟩⟩

theorem ne_of_mem_edges (h : (a, b) ∈ g.topology.edges) : a ≠ b := fun hab =>
  String.lt_irrefl b (hab ▸ (mem_edges_topology.1 h).1)

/-- All links of the topology count when clusters are sought. -/
theorem kept_topology (g : Graph) :
    Network.kept g.topology.nodes g.topology.edges = g.topology.edges := by
  refine List.filter_eq_self.2 fun e he => ?_
  obtain ⟨a, b⟩ := e
  simpa using ⟨ne_of_mem_edges he, mem_nodes_of_mem_edges he⟩

/-- **The topology of a graph is the relation between the files that produce a signal and those that
consume it.** Its nodes are the files of all facts, in strict order. Its edges are the ordered pairs
of linked files, in strict order, so that none is a loop, a repetition or the reverse of another
one. The network in which clusters are sought has all of them, and the modularity that is reported
for the clusters counts all of them. -/
theorem topology_is_relation_of_producers_and_consumers (g : Graph) :
    (g.topology.nodes.Pairwise fun a b => a < b) ∧
      (∀ file, file ∈ g.topology.nodes ↔ ∃ fact ∈ g.facts, fact.filePath = file) ∧
      (g.topology.edges.Pairwise fun e f => e.1 < f.1 ∨ e.1 = f.1 ∧ e.2 < f.2) ∧
      (∀ a b, (a, b) ∈ g.topology.edges ↔ a < b ∧ g.Linked a b) ∧
      g.topology.edges.Nodup ∧
      (∀ a b, (a, b) ∈ g.topology.edges →
        a ≠ b ∧ (b, a) ∉ g.topology.edges ∧ a ∈ g.topology.nodes ∧ b ∈ g.topology.nodes) ∧
      (Network.ofNames g.topology.nodes.eraseDups g.topology.edges).edges.map
        (Network.ends g.topology.nodes.eraseDups) = g.topology.edges ∧
      (g.topology.edges ≠ [] → ∀ passes,
        let found := Clustering.detect Rat passes g.topology.nodes g.topology.edges
        found.modularity = Network.modularityOf g.topology.edges found.clusters.values) := by
  refine ⟨pairwise_nodes_topology g, fun file => mem_nodes_topology, pairwise_edges_topology g,
    fun a b => mem_edges_topology, SortedMap.nodup_keys _, fun a b h => ?_, ?_, fun h passes => ?_⟩
  · refine ⟨ne_of_mem_edges h, fun h' => ?_, mem_nodes_of_mem_edges h⟩
    exact String.lt_asymm (mem_edges_topology.1 h).1 (mem_edges_topology.1 h').1
  · rw [Network.map_ends_edges_ofNames, Network.kept_eraseDups, kept_topology]
  · have hkept := kept_topology g
    have hmodularity := Clustering.modularity_detect_of_kept (hkept.symm ▸ h) passes
    rwa [hkept] at hmodularity

/-- A file on both sides of a signal is linked to the other files of either side, and one that only
declares a signal stands alone. -/
theorem topology_is_relation_of_producers_and_consumers_of_two_sided_file :
    let g := Graph.empty.addAll
      [.definition ⟨"hit", [], none, "b.gd", 1, "signal hit"⟩,
        .emission ⟨"hit", "b.gd", 4, "self", []⟩,
        .connection ⟨"hit", "b.gd", 6, none, "f", [], false⟩,
        .connection ⟨"hit", "a.gd", 2, none, "g", [], false⟩,
        .emission ⟨"hit", "c.gd", 3, "b", []⟩,
        .definition ⟨"quiet", [], none, "d.gd", 1, "signal quiet"⟩]
    let edges := [("a.gd", "b.gd"), ("a.gd", "c.gd"), ("b.gd", "c.gd")]
    g.topology.nodes = ["a.gd", "b.gd", "c.gd", "d.gd"] ∧
      g.topology.edges = edges ∧ ("c.gd", "a.gd") ∉ g.topology.edges ∧
      ∀ passes,
        let found := Clustering.detect Rat passes g.topology.nodes g.topology.edges
        found.modularity = Network.modularityOf edges found.clusters.values := by
  intro g edges
  have hedges : g.topology.edges = edges := by decide +kernel
  obtain ⟨-, -, -, -, -, hends, -, hmodularity⟩ :=
    topology_is_relation_of_producers_and_consumers g
  have hlink : ("a.gd", "c.gd") ∈ g.topology.edges := by simp [hedges, edges]
  have hsome : g.topology.edges ≠ [] := by simp [hedges, edges]
  refine ⟨by decide +kernel, hedges, (hends _ _ hlink).2.1, fun passes => ?_⟩
  rw [← hedges]
  exact hmodularity hsome passes

end Graph

end SignalAtlas
