import Mathlib.Tactic
import SignalAtlas.Proofs.Ascent

/-!
# The numbers of clusters

`Clustering.assemble` lists the names of each number. Its clusters are those of the numbers
0, 1, 2, … in turn, each with the names of its nodes (`Clustering.memberNames`,
`Clustering.entries_clusters_assemble`).

That the numbers follow the first names of the clusters rests on `findIdx_eraseDups_lt_iff`: which
of two kinds of members comes first in a list does not depend on later repetitions. It is used
twice, for the labels of the nodes and for the listed names.
-/

namespace SignalAtlas

/-! ### Which of two kinds comes first -/

section First

variable {α : Type} {s t : α → Bool}

/-- Dropping members of neither kind does not change which of two kinds comes first. -/
theorem findIdx_filter_lt_iff {r : α → Bool} (h : ∀ a, r a = false → s a = false ∧ t a = false)
    (l : List α) :
    (l.filter r).findIdx s < (l.filter r).findIdx t ↔ l.findIdx s < l.findIdx t := by
  induction l with
  | nil => simp
  | cons a l ih =>
    by_cases hr : r a = true
    · rw [List.filter_cons_of_pos hr]
      simp only [List.findIdx_cons]
      cases s a <;> cases t a <;> simp [ih]
    · obtain ⟨hs, ht⟩ := h a (by simpa using hr)
      rw [List.filter_cons_of_neg hr, ih]
      simp [List.findIdx_cons, hs, ht]

/-- Dropping repetitions does not change which of two kinds comes first. -/
theorem findIdx_eraseDups_lt_iff [DecidableEq α] (l : List α) :
    l.eraseDups.findIdx s < l.eraseDups.findIdx t ↔ l.findIdx s < l.findIdx t := by
  cases l with
  | nil => simp
  | cons a l =>
    rw [List.eraseDups_cons]
    simp only [List.findIdx_cons]
    cases hs : s a with
    | true => cases t a <;> simp
    | false =>
      cases ht : t a with
      | true => simp
      | false =>
        -- the head is of neither kind, so its repetitions may be dropped from the tail
        have hrest : ∀ b, (!b == a) = false → s b = false ∧ t b = false := by
          intro b hb
          obtain rfl : b = a := by simpa using hb
          exact ⟨hs, ht⟩
        simp only [cond_false, Nat.add_lt_add_iff_right]
        rw [findIdx_eraseDups_lt_iff, findIdx_filter_lt_iff hrest]
termination_by l.length
decreasing_by exact Nat.lt_succ_of_le (List.length_filter_le _ _)

/-- In a list without repetitions the first member at a place stands at that place. -/
theorem findIdx_idxOf [DecidableEq α] {l : List α} (hl : l.Nodup) {k : Nat} (hk : k < l.length) :
    l.findIdx (fun a => l.idxOf a = k) = k := by
  rw [List.findIdx_eq hk]
  constructor
  · simp [hl.idxOf_getElem k hk]
  · intro m hm
    simp [hl.idxOf_getElem m (hm.trans hk), hm.ne]

end First

/-- The first node with a smaller number comes before the first one with a greater number. -/
theorem Partition.findIdx_numberOf_lt {n : Nat} (p : Partition n) {i j : Nat} (hij : i < j)
    (hj : j < p.usedLabels.length) :
    (List.finRange n).findIdx (fun v => p.numberOf v = i) <
      (List.finRange n).findIdx (fun v => p.numberOf v = j) := by
  have hnodes : ∀ k, (List.finRange n).findIdx (fun v => p.numberOf v = k) =
      p.label.toList.findIdx (fun c => p.usedLabels.idxOf c = k) := by
    intro k
    rw [toList_label, List.findIdx_map]
    rfl
  rw [hnodes, hnodes, ← findIdx_eraseDups_lt_iff]
  show p.usedLabels.findIdx _ < p.usedLabels.findIdx _
  rw [findIdx_idxOf p.nodup_usedLabels (hij.trans hj), findIdx_idxOf p.nodup_usedLabels hj]
  exact hij

/-! ### The names of the numbers -/

namespace Clustering

open SignalAtlas.SortedMap

/-- Grouping names by their numbers gathers the names of each number. -/
theorem get?_foldl_upsert (l : List (String × Nat)) (i : Nat) :
    (l.foldl (fun m e => m.upsert e.2 fun members => sortedDistinct (members.getD [] ++ [e.1]))
      (SortedMap.empty : SortedMap Nat (List String))).get? i =
      if i ∈ l.map Prod.snd then
        some (sortedDistinct ((l.filter fun e => e.2 = i).map Prod.fst))
      else none := by
  induction l using List.reverseRecOn with
  | nil => simp
  | append_singleton l e ih =>
    rw [List.foldl_concat, upsert, get?_insert]
    by_cases he : i = e.2
    · subst he
      rw [if_pos (by simp), if_pos (by simp), ih]
      congr 1
      apply sortedDistinct_congr
      intro a
      by_cases hl : e.2 ∈ l.map Prod.snd
      · rw [if_pos hl]
        simp [mem_sortedDistinct]
      · rw [if_neg hl]
        have hnone : (l.filter fun e' => e'.2 = e.2) = [] := by
          rw [List.filter_eq_nil_iff]
          intro e' he' h
          exact hl (List.mem_map.2 ⟨e', he', of_decide_eq_true h⟩)
        simp [hnone]
    · have hmem : i ∈ (l ++ [e]).map Prod.snd ↔ i ∈ l.map Prod.snd := by simp [he]
      rw [if_neg (by simpa using he), ih]
      simp only [hmem]
      simp [Ne.symm he]

variable {names : List String} {α : Type}

/-- The names of the nodes with a number, sorted. -/
def memberNames (p : Partition names.length) (i : Nat) : List String :=
  sortedDistinct (((List.finRange names.length).filter fun v => p.numberOf v = i).map names.get)

theorem mem_memberNames {p : Partition names.length} {i : Nat} {a : String} :
    a ∈ memberNames p i ↔ ∃ v, names.get v = a ∧ p.numberOf v = i := by
  simp [memberNames, mem_sortedDistinct, and_comm]

theorem pairwise_memberNames (p : Partition names.length) (i : Nat) :
    (memberNames p i).Pairwise (· < ·) :=
  (pairwise_sortedDistinct _).imp compare_text_eq_lt.1

theorem memberNames_ne_nil {p : Partition names.length} {i : Nat} (hi : i < p.usedLabels.length) :
    memberNames p i ≠ [] := by
  obtain ⟨v, hv⟩ := p.exists_numberOf_eq hi
  exact List.ne_nil_of_mem (mem_memberNames.2 ⟨v, rfl, hv⟩)

theorem get?_clusters_assemble (p : Partition names.length) (q : α) (i : Nat) :
    (assemble names (numbered p.label) q).clusters.get? i =
      if i < p.usedLabels.length then some (memberNames p i) else none := by
  have hused : i ∈ (names.zip (numbered p.label)).map Prod.snd ↔ i < p.usedLabels.length := by
    rw [zip_numbered]
    constructor
    · intro h
      obtain ⟨v, hv⟩ : ∃ v, p.numberOf v = i := by simpa using h
      exact hv ▸ p.numberOf_lt v
    · intro h
      simpa using p.exists_numberOf_eq h
  unfold assemble
  rw [get?_foldl_upsert]
  simp only [hused]
  rw [zip_numbered, List.filter_map, List.map_map]
  rfl

/-- The clusters are those of the numbers in turn, each with the names of its nodes. -/
theorem entries_clusters_assemble (p : Partition names.length) (q : α) :
    (assemble names (numbered p.label) q).clusters.entries =
      (List.range p.usedLabels.length).map fun i => (i, memberNames p i) := by
  refine eq_of_mem_iff (SortedMap.sorted _) ?_ fun e => ?_
  · rw [List.pairwise_map]
    exact List.pairwise_lt_range.imp Nat.compare_eq_lt.2
  · obtain ⟨i, members⟩ := e
    rw [← get?_eq_some_iff, get?_clusters_assemble]
    by_cases hi : i < p.usedLabels.length
    · simp [hi, eq_comm]
    · simp [hi, eq_comm]

/-- The names of a cluster are those whose cluster it is. -/
theorem mem_clusters_assemble (hnames : names.Nodup) (p : Partition names.length) (q : α)
    (i : Nat) (a : String) :
    a ∈ (assemble names (numbered p.label) q).clusters.getD i [] ↔
      (assemble names (numbered p.label) q).clusterOf.get? a = some i := by
  rw [get?_clusterOf_assemble_iff hnames, getD, get?_clusters_assemble]
  by_cases hi : i < p.usedLabels.length
  · rw [if_pos hi]
    exact mem_memberNames
  · rw [if_neg hi]
    constructor
    · intro ha
      cases ha
    · rintro ⟨v, -, rfl⟩
      exact absurd (p.numberOf_lt v) hi

theorem mem_keys_clusterOf_assemble (hnames : names.Nodup) (p : Partition names.length) (q : α)
    (a : String) : a ∈ (assemble names (numbered p.label) q).clusterOf.keys ↔ a ∈ names := by
  rw [mem_keys, List.mem_iff_get]
  constructor
  · rintro ⟨i, hi⟩
    obtain ⟨v, hv, -⟩ := (get?_clusterOf_assemble_iff hnames).1 hi
    exact ⟨v, hv⟩
  · rintro ⟨v, rfl⟩
    exact ⟨_, get?_clusterOf_assemble_get hnames p q v⟩

theorem size_clusters_assemble (p : Partition names.length) (q : α) :
    (assemble names (numbered p.label) q).clusters.size = p.usedLabels.length := by
  simp [SortedMap.size, entries_clusters_assemble]

theorem keys_clusters_assemble (p : Partition names.length) (q : α) :
    (assemble names (numbered p.label) q).clusters.keys = List.range p.usedLabels.length := by
  simp [SortedMap.keys, entries_clusters_assemble, Function.comp_def]

theorem memberNames_of_get? {p : Partition names.length} {q : α} {i : Nat} {group : List String}
    (h : (assemble names (numbered p.label) q).clusters.get? i = some group) :
    i < p.usedLabels.length ∧ memberNames p i = group := by
  rw [get?_clusters_assemble, Option.ite_none_right_eq_some] at h
  exact ⟨h.1, Option.some.inj h.2⟩

/-- The place of the first listed name of a cluster. -/
def firstPlace (r : Clustering α) (nodes : List String) (i : Nat) : Nat :=
  nodes.findIdx fun a => r.clusterOf.get? a = some i

theorem firstPlace_assemble (hnames : names.Nodup) (p : Partition names.length) (q : α) (i : Nat) :
    (assemble names (numbered p.label) q).firstPlace names i =
      (List.finRange names.length).findIdx fun v => p.numberOf v = i := by
  have hmap : ∀ s : String → Bool,
      names.findIdx s = (List.finRange names.length).findIdx (s ∘ names.get) := by
    intro s
    rw [← List.findIdx_map, List.map_get_finRange]
  rw [firstPlace, hmap]
  congr 1
  funext v
  simp only [Function.comp_apply, get?_clusterOf_assemble_get hnames, Option.some.injEq]

/-- A smaller number means an earlier first name, also in a list that repeats names. -/
theorem firstPlace_assemble_lt {nodes : List String} (p : Partition nodes.eraseDups.length) (q : α)
    {i j : Nat} (hij : i < j) (hj : j < p.usedLabels.length) :
    (assemble nodes.eraseDups (numbered p.label) q).firstPlace nodes i <
      (assemble nodes.eraseDups (numbered p.label) q).firstPlace nodes j := by
  have hnames : nodes.eraseDups.Nodup := nodup_eraseDups nodes
  refine (findIdx_eraseDups_lt_iff nodes).1 ?_
  calc (assemble nodes.eraseDups (numbered p.label) q).firstPlace nodes.eraseDups i
    _ = (List.finRange _).findIdx fun v => p.numberOf v = i := firstPlace_assemble hnames p q i
    _ < (List.finRange _).findIdx fun v => p.numberOf v = j := p.findIdx_numberOf_lt hij hj
    _ = (assemble nodes.eraseDups (numbered p.label) q).firstPlace nodes.eraseDups j :=
      (firstPlace_assemble hnames p q j).symm

/-! ### Detection -/

/-- Clusters that part the listed names, numbered from 0 on without gaps by the places of their
first names. The names of a cluster increase, and no cluster is empty. -/
structure DenselyNumbered (nodes : List String) (r : Clustering α) : Prop where
  listed : ∀ a, a ∈ r.clusterOf.keys ↔ a ∈ nodes
  members : ∀ i a, a ∈ r.clusters.getD i [] ↔ r.clusterOf.get? a = some i
  sorted : ∀ i group, r.clusters.get? i = some group → group.Pairwise (· < ·)
  inhabited : ∀ i group, r.clusters.get? i = some group → group ≠ []
  numbers : r.clusters.keys = List.range r.clusters.size
  first : ∀ i j, i < j → j < r.clusters.size → r.firstPlace nodes i < r.firstPlace nodes j

/-- Detection reports a partition that has whatever moves to better clusters keep. -/
theorem exists_detect_eq (α : Type) [Quantity α] (passes : Nat) (nodes : List String)
    (edges : List (String × String)) (P : Partition nodes.eraseDups.length → Prop)
    (hstart : P (Partition.singletons (Network.ofNames nodes.eraseDups edges)))
    (hmove : ∀ p v, let net := Network.ofNames nodes.eraseDups edges
      P p → Partition.best α net p v ≠ p.labelOf v →
        P (Partition.move net p v (Partition.best α net p v))) :
    ∃ p q, P p ∧
      detect α passes nodes edges = assemble nodes.eraseDups (numbered p.label) q := by
  rcases Nat.eq_zero_or_pos (Network.ofNames nodes.eraseDups edges).size with hsize | hsize
  · exact ⟨_, _, hstart, if_pos hsize⟩
  · exact ⟨_, _, Partition.settle_keeps hmove passes hstart, detect_eq hsize passes⟩

/-- Detection parts the listed names into clusters that are not empty, and numbers them from 0 on
by their first listed names. -/
theorem clusters_are_numbered_by_first_appearance (α : Type) [Quantity α] (passes : Nat)
    (nodes : List String) (edges : List (String × String)) :
    (detect α passes nodes edges).DenselyNumbered nodes := by
  have hnames : nodes.eraseDups.Nodup := nodup_eraseDups nodes
  obtain ⟨p, q, -, hdetect⟩ := exists_detect_eq α passes nodes edges (fun _ => True) trivial
    fun _ _ _ _ => trivial
  rw [hdetect]
  constructor
  case listed =>
    intro a
    rw [mem_keys_clusterOf_assemble hnames, List.mem_eraseDups]
  case members => exact mem_clusters_assemble hnames p q
  case sorted =>
    intro i group h
    rw [← (memberNames_of_get? h).2]
    exact pairwise_memberNames p i
  case inhabited =>
    intro i group h
    obtain ⟨hi, rfl⟩ := memberNames_of_get? h
    exact memberNames_ne_nil hi
  case numbers => rw [keys_clusters_assemble, size_clusters_assemble]
  case first =>
    intro i j hij hj
    rw [size_clusters_assemble] at hj
    exact firstPlace_assemble_lt p q hij hj

theorem clusters_are_numbered_by_first_appearance_of_repeated_names :
    let nodes := ["c", "b", "a", "c", "b"]
    let r := detect Rat defaultPasses nodes [("a", "b"), ("c", "d")]
    r.clusters.get? 1 = some ["a", "b"] ∧ 1 < r.clusters.size ∧
      r.firstPlace nodes 0 < r.firstPlace nodes 1 := by
  intro nodes r
  have hdense : r.DenselyNumbered nodes :=
    clusters_are_numbered_by_first_appearance Rat defaultPasses nodes _
  have hgroup : r.clusters.get? 1 = some ["a", "b"] := by decide +kernel
  have hsize : 1 < r.clusters.size := by decide +kernel
  exact ⟨hgroup, hsize, hdense.first 0 1 (by decide) hsize⟩

end Clustering

end SignalAtlas
