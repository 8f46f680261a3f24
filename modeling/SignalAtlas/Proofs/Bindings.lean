import Mathlib.Tactic
import SignalAtlas.SortedMap

/-!
# Sorted lists and the bindings of maps

Two facts that later proofs lean on again and again: sorting by a text forgets the order in which
different texts came (`mergeSort_eq_of_perm`), and binding the entries of a list in turn leaves for
each key the last of its bindings (`get?_insertAll`).
-/

namespace SignalAtlas

/-! ### Sorting by a text -/

section Sorting

variable {α : Type} (f : α → String)

theorem pairwise_mergeSort_text (l : List α) :
    (l.mergeSort fun a b => f a ≤ f b).Pairwise fun a b => f a ≤ f b := by
  have h := @List.pairwise_mergeSort α (fun a b => decide (f a ≤ f b))
    (fun a b c hab hbc => by
      rw [decide_eq_true_eq] at hab hbc ⊢; exact String.le_trans hab hbc)
    (fun a b => by
      rcases String.le_total (f a) (f b) with h | h <;> simp [h]) l
  simpa using h

/-- Sorting by a text that tells the members of a list apart does not depend on their order. -/
theorem mergeSort_eq_of_perm {l m : List α} (h : l.Perm m) (hn : (l.map f).Nodup) :
    (l.mergeSort fun a b => f a ≤ f b) = m.mergeSort fun a b => f a ≤ f b := by
  refine List.Perm.eq_of_pairwise ?_ (pairwise_mergeSort_text f l) (pairwise_mergeSort_text f m)
    ((List.mergeSort_perm l _).trans (h.trans (List.mergeSort_perm m _).symm))
  intro a b ha hb hab hba
  have ha' : a ∈ l := List.mem_mergeSort.1 ha
  have hb' : b ∈ l := h.symm.subset (List.mem_mergeSort.1 hb)
  exact List.inj_on_of_nodup_map hn ha' hb' (String.le_antisymm hab hba)

theorem pairwise_lt_mergeSort {l : List α} (hn : (l.map f).Nodup) :
    (l.mergeSort fun a b => f a ≤ f b).Pairwise fun a b => f a < f b := by
  have hn' : ((l.mergeSort fun a b => f a ≤ f b).map f).Nodup :=
    ((List.mergeSort_perm l _).map f).nodup_iff.2 hn
  refine ((pairwise_mergeSort_text f l).and (List.pairwise_map.1 hn')).imp ?_
  rintro a b ⟨hle, hne⟩
  exact Std.lt_of_le_of_ne hle hne

end Sorting

/-! ### Bindings -/

namespace SortedMap

variable {α β : Type} [Ord α]

theorem find?_append (k : α) (l m : List (α × β)) :
    find? k (l ++ m) = (find? k l).or (find? k m) := by
  induction l with
  | nil => simp [find?]
  | cons e l ih =>
    obtain ⟨a, b⟩ := e
    rw [List.cons_append, find?, find?]
    split
    · rfl
    · exact ih

/-- Of the bindings of a key the last one counts. -/
theorem get?_insertAll [Std.TransOrd α] [Std.LawfulEqOrd α] (m : SortedMap α β)
    (l : List (α × β)) (k : α) :
    (m.insertAll l).get? k = (find? k l.reverse).or (m.get? k) := by
  induction l generalizing m with
  | nil => rfl
  | cons e l ih =>
    obtain ⟨a, b⟩ := e
    show ((m.insert a b).insertAll l).get? k = _
    rw [ih, get?_insert, List.reverse_cons, find?_append, Option.or_assoc]
    by_cases h : compare k a = .eq <;> simp [find?, h]

theorem find?_eq_some_iff_of_nodup [Std.LawfulEqOrd α] {l : List (α × β)}
    (hn : (l.map Prod.fst).Nodup) {k : α} {v : β} : find? k l = some v ↔ (k, v) ∈ l := by
  refine ⟨mem_of_find?_eq_some, fun h => ?_⟩
  induction l with
  | nil => simp at h
  | cons e l ih =>
    obtain ⟨a, b⟩ := e
    rw [List.map_cons, List.nodup_cons] at hn
    rcases List.mem_cons.1 h with he | he
    · cases he
      simp [find?]
    · have hka : k ≠ a := fun hk => hn.1 (List.mem_map.2 ⟨(k, v), he, hk⟩)
      rw [find?, if_neg (by simpa using hka), ih hn.2 he]

theorem find?_reverse [Std.LawfulEqOrd α] {l : List (α × β)} (hn : (l.map Prod.fst).Nodup)
    (k : α) : find? k l.reverse = find? k l := by
  have hr : (l.reverse.map Prod.fst).Nodup := by
    rw [List.map_reverse]; exact List.nodup_reverse.2 hn
  ext v
  rw [find?_eq_some_iff_of_nodup hr, find?_eq_some_iff_of_nodup hn, List.mem_reverse]

theorem get?_insertAll_of_mem [Std.TransOrd α] [Std.LawfulEqOrd α] (m : SortedMap α β)
    {l : List (α × β)} (hn : (l.map Prod.fst).Nodup) {k : α} {v : β} (h : (k, v) ∈ l) :
    (m.insertAll l).get? k = some v := by
  rw [get?_insertAll, find?_reverse hn, (find?_eq_some_iff_of_nodup hn).2 h, Option.some_or]

theorem get?_insertAll_of_not_mem [Std.TransOrd α] [Std.LawfulEqOrd α] (m : SortedMap α β)
    {l : List (α × β)} {k : α} (h : k ∉ l.map Prod.fst) : (m.insertAll l).get? k = m.get? k := by
  have hnone : find? k l.reverse = none := by
    refine Option.eq_none_iff_forall_ne_some.2 fun v hv => ?_
    exact h (List.mem_map.2 ⟨(k, v), List.mem_reverse.1 (mem_of_find?_eq_some hv), rfl⟩)
  rw [get?_insertAll, hnone, Option.none_or]

theorem get?_ofList [Std.TransOrd α] [Std.LawfulEqOrd α] (l : List (α × β)) (k : α) :
    (ofList l).get? k = find? k l.reverse := by
  rw [ofList, get?_insertAll, get?_empty, Option.or_none]

theorem nodup_keys [Std.LawfulEqOrd α] (m : SortedMap α β) : (m.entries.map Prod.fst).Nodup := by
  refine List.pairwise_map.2 (m.sorted.imp ?_)
  intro a b h hab
  have hr : compare b.1 b.1 = .eq := Std.ReflCmp.compare_self
  rw [KeyLt, hab, hr] at h
  cases h

/-- A map is the map of its own bindings. -/
theorem ofList_entries [Std.TransOrd α] [Std.LawfulEqOrd α] (m : SortedMap α β) :
    ofList m.entries = m := by
  apply ext_get?
  intro k
  rw [get?_ofList, find?_reverse m.nodup_keys]
  rfl

theorem get?_insertAll_entries [Std.TransOrd α] [Std.LawfulEqOrd α] (m n : SortedMap α β)
    (k : α) :
    (m.insertAll n.entries).get? k = (n.get? k).or (m.get? k) := by
  rw [get?_insertAll, find?_reverse n.nodup_keys]
  rfl

theorem mem_keys [Std.TransOrd α] [Std.LawfulEqOrd α] {m : SortedMap α β} {k : α} :
    k ∈ m.keys ↔ ∃ v, m.get? k = some v := by
  simp only [keys, List.mem_map, Prod.exists, exists_and_right, exists_eq_right, get?_eq_some_iff]

theorem mem_values [Std.TransOrd α] [Std.LawfulEqOrd α] {m : SortedMap α β} {v : β} :
    v ∈ m.values ↔ ∃ k, m.get? k = some v := by
  simp only [values, List.mem_map, Prod.exists, exists_eq_right, get?_eq_some_iff]

/-- A list that binds each key to a value of its own. -/
theorem find?_map_key [Std.LawfulEqOrd α] {γ : Type} [DecidableEq α] (f : γ → α) (g : α → β)
    (l : List γ) (k : α) :
    find? k (l.map fun x => (f x, g (f x))) = if k ∈ l.map f then some (g k) else none := by
  induction l with
  | nil => rfl
  | cons x l ih =>
    rw [List.map_cons, find?, ih]
    by_cases h : k = f x
    · simp [h]
    · simp [h]

theorem mem_sortedDistinct [Std.TransOrd α] [Std.LawfulEqOrd α] [DecidableEq α] {l : List α}
    {a : α} : a ∈ sortedDistinct l ↔ a ∈ l := by
  have hfind := find?_map_key id (fun _ => ()) l.reverse a
  simp only [id_eq] at hfind
  rw [sortedDistinct, mem_keys, get?_ofList, ← List.map_reverse, hfind]
  simp

theorem pairwise_keys (m : SortedMap α β) : m.keys.Pairwise fun a b => compare a b = .lt :=
  List.pairwise_map.2 m.sorted

theorem pairwise_sortedDistinct [Std.TransOrd α] [Std.LawfulEqOrd α] (l : List α) :
    (sortedDistinct l).Pairwise fun a b => compare a b = .lt :=
  pairwise_keys _

/-- Lists with the same members are the same once sorted. -/
theorem sortedDistinct_congr [Std.TransOrd α] [Std.LawfulEqOrd α] [DecidableEq α] {l m : List α}
    (h : ∀ a, a ∈ l ↔ a ∈ m) : sortedDistinct l = sortedDistinct m := by
  unfold sortedDistinct
  congr 1
  apply ext_get?
  intro k
  have hl := find?_map_key id (fun _ => ()) l.reverse k
  have hm := find?_map_key id (fun _ => ()) m.reverse k
  simp only [id_eq, List.map_id_fun, List.mem_reverse, h] at hl hm
  rw [get?_ofList, get?_ofList, ← List.map_reverse, ← List.map_reverse, hl, hm]

end SortedMap

theorem lookup_cons_if {α β : Type} [BEq α] [LawfulBEq α] [DecidableEq α] (k a : α) (b : β)
    (l : List (α × β)) : ((a, b) :: l).lookup k = if k = a then some b else l.lookup k := by
  rw [List.lookup_cons]
  by_cases h : k = a
  · rw [if_pos h, beq_iff_eq.2 h]
  · rw [if_neg h, beq_eq_false_iff_ne.2 h]

theorem SortedMap.lookup_eq_find? {β : Type} (k : String) (l : List (String × β)) :
    l.lookup k = find? k l := by
  induction l with
  | nil => rfl
  | cons e l ih =>
    obtain ⟨a, b⟩ := e
    rw [lookup_cons_if, find?, ih]
    simp only [Std.LawfulEqOrd.compare_eq_iff_eq]

theorem lookup_map_value {β γ : Type} (f : β → γ) (k : String) (l : List (String × β)) :
    (l.map fun e => (e.1, f e.2)).lookup k = (l.lookup k).map f := by
  induction l with
  | nil => rfl
  | cons e l ih =>
    rw [List.map_cons, lookup_cons_if, lookup_cons_if, ih]
    split <;> rfl

theorem compare_text_eq_lt {a b : String} : compare a b = .lt ↔ a < b := by
  show compareOfLessAndEq a b = .lt ↔ a < b
  rw [compareOfLessAndEq_eq_lt]

end SignalAtlas
