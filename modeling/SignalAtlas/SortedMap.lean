/-!
# Maps with sorted keys

A `SortedMap α β` is an association list whose keys increase strictly, so a map has exactly one
representation and two maps with the same bindings are equal (`SortedMap.ext_get?`).

* `SortedMap.get?`, `SortedMap.insert`, `SortedMap.erase`, `SortedMap.filter` are the operations;
* `get?_insert`, `get?_erase`, `get?_filter` say what they do to the bindings;
* `SortedMap.keys` and `SortedMap.values` list the bindings in increasing order of their keys.
-/

namespace SignalAtlas

variable {α β γ : Type} [Ord α]

/-- Two bindings in the order of their keys. -/
def KeyLt (a b : α × β) : Prop := compare a.1 b.1 = .lt

/-- A finite map, kept as the list of its bindings by strictly increasing key. -/
structure SortedMap (α β : Type) [Ord α] where
  entries : List (α × β)
  sorted : entries.Pairwise KeyLt

namespace SortedMap

/-! ### Bindings of a list -/

/-- The value bound to a key in a list of bindings. -/
def find? (k : α) : List (α × β) → Option β
  | [] => none
  | (a, b) :: l => if compare k a = .eq then some b else find? k l

/-- Bind a key in a sorted list, replacing an earlier binding. -/
def put (k : α) (v : β) : List (α × β) → List (α × β)
  | [] => [(k, v)]
  | (a, b) :: l =>
    match compare k a with
    | .lt => (k, v) :: (a, b) :: l
    | .eq => (k, v) :: l
    | .gt => (a, b) :: put k v l

theorem mem_put {k : α} {v : β} {e : α × β} {l : List (α × β)} (h : e ∈ put k v l) :
    e = (k, v) ∨ e ∈ l := by
  induction l with
  | nil => simpa [put] using h
  | cons a l ih =>
    obtain ⟨a, b⟩ := a
    rw [put] at h
    split at h <;> simp only [List.mem_cons] at h ⊢ <;> grind

theorem pairwise_put [Std.TransOrd α] [Std.LawfulEqOrd α] (k : α) (v : β) {l : List (α × β)}
    (h : l.Pairwise KeyLt) : (put k v l).Pairwise KeyLt := by
  induction l with
  | nil => simp [put]
  | cons a l ih =>
    obtain ⟨a, b⟩ := a
    obtain ⟨ha, hl⟩ := List.pairwise_cons.1 h
    rw [put]
    split
    · next hk =>
      refine List.pairwise_cons.2 ⟨fun e he => ?_, h⟩
      rcases List.mem_cons.1 he with rfl | he
      · exact hk
      · exact Std.TransCmp.lt_trans hk (ha e he)
    · next hk =>
      cases Std.LawfulEqCmp.eq_of_compare hk
      exact List.pairwise_cons.2 ⟨ha, hl⟩
    · next hk =>
      refine List.pairwise_cons.2 ⟨fun e he => ?_, ih hl⟩
      rcases mem_put he with rfl | he
      · exact Std.OrientedCmp.gt_iff_lt.1 hk
      · exact ha e he

/-! ### Operations -/

/-- The map without bindings. -/
def empty : SortedMap α β := ⟨[], .nil⟩

instance : EmptyCollection (SortedMap α β) := ⟨empty⟩

instance : Inhabited (SortedMap α β) := ⟨empty⟩

/-- The value bound to a key. -/
def get? (m : SortedMap α β) (k : α) : Option β := find? k m.entries

/-- The value bound to a key, or the given one. -/
def getD (m : SortedMap α β) (k : α) (d : β) : β := (m.get? k).getD d

/-- Whether a key is bound. -/
def contains (m : SortedMap α β) (k : α) : Bool := (m.get? k).isSome

/-- Bind a key, replacing an earlier binding. -/
def insert [Std.TransOrd α] [Std.LawfulEqOrd α] (m : SortedMap α β) (k : α) (v : β) :
    SortedMap α β :=
  ⟨put k v m.entries, pairwise_put k v m.sorted⟩

/-- Keep the bindings that pass a test. -/
def filter (m : SortedMap α β) (p : α → β → Bool) : SortedMap α β :=
  ⟨m.entries.filter fun e => p e.1 e.2, m.sorted.filter _⟩

/-- Drop the binding of a key. -/
def erase (m : SortedMap α β) (k : α) : SortedMap α β :=
  m.filter fun a _ => compare k a != .eq

/-- Rebind a key to a value computed from its present one. -/
def upsert [Std.TransOrd α] [Std.LawfulEqOrd α] (m : SortedMap α β) (k : α)
    (f : Option β → β) : SortedMap α β :=
  m.insert k (f (m.get? k))

/-- Bind the keys of a list in turn; the last binding of a key wins. -/
def insertAll [Std.TransOrd α] [Std.LawfulEqOrd α] (m : SortedMap α β) (l : List (α × β)) :
    SortedMap α β :=
  l.foldl (fun m e => m.insert e.1 e.2) m

/-- The map of a list of bindings; the last binding of a key wins. -/
def ofList [Std.TransOrd α] [Std.LawfulEqOrd α] (l : List (α × β)) : SortedMap α β :=
  empty.insertAll l

/-- The keys in increasing order. -/
def keys (m : SortedMap α β) : List α := m.entries.map Prod.fst

/-- The values by increasing key. -/
def values (m : SortedMap α β) : List β := m.entries.map Prod.snd

/-- The number of bindings. -/
def size (m : SortedMap α β) : Nat := m.entries.length

/-- Whether there is no binding. -/
def isEmpty (m : SortedMap α β) : Bool := m.entries.isEmpty

/-- The sorted list without duplicates of the members of a list. -/
def sortedDistinct [Std.TransOrd α] [Std.LawfulEqOrd α] (l : List α) : List α :=
  (ofList (l.map fun a => (a, ()))).keys

/-! ### What the operations do to the bindings -/

@[simp] theorem get?_empty (k : α) : (empty : SortedMap α β).get? k = none := rfl

theorem find?_put [Std.TransOrd α] [Std.LawfulEqOrd α] (k x : α) (v : β) (l : List (α × β)) :
    find? x (put k v l) = if compare x k = .eq then some v else find? x l := by
  induction l with
  | nil => simp [put, find?]
  | cons a l ih =>
    obtain ⟨a, b⟩ := a
    rw [put]
    split
    · simp [find?]
    · next hk =>
      cases Std.LawfulEqCmp.eq_of_compare hk
      by_cases hx : compare x k = .eq <;> simp [find?, hx]
    · next hk =>
      by_cases hx : compare x k = .eq
      · cases Std.LawfulEqCmp.eq_of_compare hx
        simp [find?, hk, ih]
      · simp [find?, hx, ih]

@[simp] theorem get?_insert [Std.TransOrd α] [Std.LawfulEqOrd α] (m : SortedMap α β) (k x : α)
    (v : β) : (m.insert k v).get? x = if compare x k = .eq then some v else m.get? x :=
  find?_put k x v m.entries

theorem mem_of_find?_eq_some [Std.LawfulEqOrd α] {k : α} {v : β} {l : List (α × β)}
    (h : find? k l = some v) : (k, v) ∈ l := by
  induction l with
  | nil => simp [find?] at h
  | cons a l ih =>
    obtain ⟨a, b⟩ := a
    rw [find?] at h
    split at h
    · next hk =>
      cases Std.LawfulEqCmp.eq_of_compare hk
      simp_all
    · exact List.mem_cons_of_mem _ (ih h)

theorem find?_eq_some_of_mem [Std.TransOrd α] {k : α} {v : β} {l : List (α × β)}
    (hl : l.Pairwise KeyLt) (h : (k, v) ∈ l) : find? k l = some v := by
  induction l with
  | nil => simp at h
  | cons a l ih =>
    obtain ⟨a, b⟩ := a
    obtain ⟨ha, hl⟩ := List.pairwise_cons.1 hl
    rcases List.mem_cons.1 h with he | he
    · cases he
      simp [find?, Std.ReflCmp.compare_self]
    · have hlt : compare a k = .lt := ha _ he
      have hne : compare k a ≠ .eq := by
        rw [Std.OrientedOrd.eq_swap, hlt]; decide
      simp [find?, hne, ih hl he]

/-- Looking up is membership among the bindings. -/
theorem get?_eq_some_iff [Std.TransOrd α] [Std.LawfulEqOrd α] {m : SortedMap α β} {k : α}
    {v : β} : m.get? k = some v ↔ (k, v) ∈ m.entries :=
  ⟨mem_of_find?_eq_some, find?_eq_some_of_mem m.sorted⟩

@[simp] theorem get?_filter [Std.TransOrd α] [Std.LawfulEqOrd α] (m : SortedMap α β)
    (p : α → β → Bool) (k : α) : (m.filter p).get? k = (m.get? k).filter (p k) := by
  ext v
  rw [Option.filter_eq_some_iff, get?_eq_some_iff, get?_eq_some_iff]
  simp [filter]

@[simp] theorem get?_erase [Std.TransOrd α] [Std.LawfulEqOrd α] (m : SortedMap α β) (k x : α) :
    (m.erase k).get? x = if compare k x = .eq then none else m.get? x := by
  rw [erase, get?_filter]
  by_cases h : compare k x = .eq <;> cases m.get? x <;> simp [h, Option.filter]

/-! ### Extensionality -/

theorem eq_of_mem_iff [Std.TransOrd α] {l₁ l₂ : List (α × β)} (h₁ : l₁.Pairwise KeyLt)
    (h₂ : l₂.Pairwise KeyLt) (h : ∀ e, e ∈ l₁ ↔ e ∈ l₂) : l₁ = l₂ := by
  induction l₁ generalizing l₂ with
  | nil =>
    cases l₂ with
    | nil => rfl
    | cons b l₂ => exact absurd ((h b).2 (by simp)) (by simp)
  | cons a l₁ ih =>
    cases l₂ with
    | nil => exact absurd ((h a).1 (by simp)) (by simp)
    | cons b l₂ =>
      obtain ⟨ha, ha'⟩ := List.pairwise_cons.1 h₁
      obtain ⟨hb, hb'⟩ := List.pairwise_cons.1 h₂
      have irrefl : ∀ e : α × β, ¬KeyLt e e := fun e he => by
        have hr : compare e.1 e.1 = .eq := Std.ReflCmp.compare_self
        exact absurd (hr.symm.trans he) (by decide)
      -- a head missing from the other head's place would lie strictly after itself
      have hab : a = b := by
        rcases List.mem_cons.1 ((h a).1 (by simp)) with he | hm
        · exact he
        · rcases List.mem_cons.1 ((h b).2 (by simp)) with he | hm'
          · exact he.symm
          · exact absurd (Std.TransCmp.lt_trans (ha b hm') (hb a hm)) (irrefl a)
      subst hab
      congr 1
      refine ih ha' hb' fun e => ⟨fun he => ?_, fun he => ?_⟩
      · rcases List.mem_cons.1 ((h e).1 (List.mem_cons_of_mem _ he)) with rfl | hm
        · exact absurd (ha _ he) (irrefl _)
        · exact hm
      · rcases List.mem_cons.1 ((h e).2 (List.mem_cons_of_mem _ he)) with rfl | hm
        · exact absurd (hb _ he) (irrefl _)
        · exact hm

/-- Maps with the same bindings are equal. -/
theorem ext_get? [Std.TransOrd α] [Std.LawfulEqOrd α] {m n : SortedMap α β}
    (h : ∀ k, m.get? k = n.get? k) : m = n := by
  obtain ⟨l₁, h₁⟩ := m
  obtain ⟨l₂, h₂⟩ := n
  congr 1
  refine eq_of_mem_iff h₁ h₂ fun e => ?_
  have := h e.1
  rw [← get?_eq_some_iff (m := ⟨l₁, h₁⟩), ← get?_eq_some_iff (m := ⟨l₂, h₂⟩), this]

end SortedMap

end SignalAtlas
