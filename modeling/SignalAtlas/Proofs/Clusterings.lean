import Mathlib.Tactic
import SignalAtlas.Proofs.Bindings
import SignalAtlas.Proofs.Modularity

/-!
# The clusters of a partition

`Clustering.detect` numbers the labels that it settles on by the first node that has them, and gives
each name the number of its node (`Partition.numberOf`). Two names have the same number exactly if
their nodes have the same label (`clusterOf_detect_eq_iff`), so what depends only on who is together
with whom may be said of the reported clusters or of the labels.
-/

namespace SignalAtlas

theorem nodup_eraseDups {α : Type} [DecidableEq α] (l : List α) : l.eraseDups.Nodup := by
  cases l with
  | nil => simp
  | cons a l =>
    rw [List.eraseDups_cons, List.nodup_cons]
    exact ⟨by simp, nodup_eraseDups _⟩
termination_by l.length
decreasing_by exact Nat.lt_succ_of_le (List.length_filter_le _ _)

/-! ### The numbers of nodes -/

namespace Partition

variable {n : Nat} (p : Partition n)

/-- The labels that nodes have, by the first node that has them. -/
def usedLabels : List (Fin n) := p.label.toList.eraseDups

/-- The number of the label of a node. -/
def numberOf (v : Fin n) : Nat := p.usedLabels.idxOf (p.labelOf v)

theorem toList_label : p.label.toList = (List.finRange n).map p.labelOf := by
  apply List.ext_getElem
  · simp
  · intro i h₁ h₂
    simp [labelOf]

theorem nodup_usedLabels : p.usedLabels.Nodup := nodup_eraseDups _

theorem mem_usedLabels {c : Fin n} : c ∈ p.usedLabels ↔ ∃ v, p.labelOf v = c := by
  simp [usedLabels, toList_label]

theorem labelOf_mem_usedLabels (v : Fin n) : p.labelOf v ∈ p.usedLabels :=
  p.mem_usedLabels.2 ⟨v, rfl⟩

theorem numberOf_lt (v : Fin n) : p.numberOf v < p.usedLabels.length :=
  List.idxOf_lt_length_of_mem (p.labelOf_mem_usedLabels v)

theorem numberOf_eq_iff {u v : Fin n} : p.numberOf u = p.numberOf v ↔ p.labelOf u = p.labelOf v :=
  List.idxOf_inj (p.labelOf_mem_usedLabels u)

/-- Every number below that of the used labels is the number of a node. -/
theorem exists_numberOf_eq {i : Nat} (hi : i < p.usedLabels.length) : ∃ v, p.numberOf v = i := by
  obtain ⟨v, hv⟩ := p.mem_usedLabels.1 (List.getElem_mem hi)
  refine ⟨v, ?_⟩
  rw [numberOf, hv]
  exact p.nodup_usedLabels.idxOf_getElem i hi

end Partition

/-! ### The numbers of names -/

namespace Clustering

open SignalAtlas.SortedMap

variable {names : List String} {α : Type}

theorem zip_numbered (p : Partition names.length) : names.zip (numbered p.label) =
    (List.finRange names.length).map fun v => (names.get v, p.numberOf v) := by
  have hnumbers : numbered p.label = (List.finRange names.length).map p.numberOf := by
    rw [numbered, p.toList_label, List.map_map, ← p.toList_label]
    rfl
  rw [hnumbers]
  nth_rewrite 1 [← List.map_get_finRange names]
  exact List.zip_map'

/-- The cluster of a name is the number of its node. -/
theorem get?_clusterOf_assemble_iff (hnames : names.Nodup) {p : Partition names.length} {q : α}
    {a : String} {i : Nat} :
    (assemble names (numbered p.label) q).clusterOf.get? a = some i ↔
      ∃ v, names.get v = a ∧ p.numberOf v = i := by
  have hkeys : ((names.zip (numbered p.label)).map Prod.fst).Nodup := by
    rwa [List.map_fst_zip (by simp [numbered])]
  show (ofList (names.zip (numbered p.label))).get? a = some i ↔ _
  rw [get?_ofList, find?_reverse hkeys, find?_eq_some_iff_of_nodup hkeys, zip_numbered]
  simp

theorem get?_clusterOf_assemble_get (hnames : names.Nodup) (p : Partition names.length) (q : α)
    (v : Fin names.length) :
    (assemble names (numbered p.label) q).clusterOf.get? (names.get v) = some (p.numberOf v) :=
  (get?_clusterOf_assemble_iff hnames).2 ⟨v, rfl, rfl⟩

/-! ### Detection -/

section Detection

variable {α : Type} [Quantity α] {nodes : List String} {edges : List (String × String)}
  (h : 0 < (Network.ofNames nodes.eraseDups edges).size) (passes : Nat)

include h

theorem detect_eq :
    let net := Network.ofNames nodes.eraseDups edges
    let p := Partition.settle α net passes (Partition.singletons net)
    detect α passes nodes edges =
      assemble nodes.eraseDups (numbered p.label) (Partition.modularity α net p) :=
  if_neg h.ne'

theorem clusterOf_detect (v : Fin nodes.eraseDups.length) :
    let net := Network.ofNames nodes.eraseDups edges
    let p := Partition.settle α net passes (Partition.singletons net)
    (detect α passes nodes edges).clusterOf.get? (nodes.eraseDups.get v) =
      some (p.numberOf v) := by
  intro net p
  rw [detect_eq h]
  exact get?_clusterOf_assemble_get (nodup_eraseDups nodes) p _ v

/-- Names are in one cluster exactly if their nodes have one label. -/
theorem clusterOf_detect_eq_iff (u v : Fin nodes.eraseDups.length) :
    let net := Network.ofNames nodes.eraseDups edges
    let p := Partition.settle α net passes (Partition.singletons net)
    (detect α passes nodes edges).clusterOf.get? (nodes.eraseDups.get u) =
        (detect α passes nodes edges).clusterOf.get? (nodes.eraseDups.get v) ↔
      p.labelOf u = p.labelOf v := by
  intro net p
  rw [clusterOf_detect h, clusterOf_detect h, Option.some_inj]
  exact p.numberOf_eq_iff

end Detection

end Clustering

end SignalAtlas
