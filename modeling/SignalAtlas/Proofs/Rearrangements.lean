import Mathlib.Tactic
import SignalAtlas.RunSort

/-!
# Sorting by runs loses nothing

A result of `RunSort.sort?` has the items of the list, each as often as before, whatever the
comparison answers (`RunSort.rearranges_sort?`). Nothing is assumed of the comparison: it need not
be transitive, nor answer differently when its arguments are swapped.

Most steps only move items about. The merge from both ends is the exception: each end goes its own
way, so one item could be taken twice and another one not at all. It gives a result only if the ends
meet, that is, if together they have taken each list once (`RunSort.perm_of_meet?`).
-/

namespace SignalAtlas.RunSort

variable {α : Type} (less : α → α → Bool)

/-- A way of sorting that may fail but neither loses nor adds an item. -/
def Rearranges (sort? : List α → Option (List α)) : Prop :=
  ∀ l m, sort? l = some m → m.Perm l

/-! ### Few items -/

theorem place_perm (a : α) (l : List α) : (place less a l).Perm (a :: l) := by
  induction l with
  | nil => rfl
  | cons b l ih =>
    rw [place]
    split
    · exact (ih.cons b).trans (.swap a b l)
    · rfl

theorem placeAll_perm (start l : List α) : (placeAll less start l).Perm (l ++ start) := by
  induction l generalizing start with
  | nil => rfl
  | cons a l ih =>
    calc (placeAll less (place less a start) l).Perm (l ++ place less a start) := ih _
      _ |>.Perm (l ++ a :: start) := (place_perm less a start).append_left l
      _ |>.Perm (a :: l ++ start) := List.perm_middle

theorem insertion_perm (l : List α) : (insertion less l).Perm l := by
  have h := (List.reverse_perm _).trans (placeAll_perm less [] l)
  rwa [List.append_nil] at h

/-- Four items, two and two in order, stay what they are however they are compared. -/
theorem crossed_perm (low high turn : Bool) (a b c d : α) :
    let left := if low then a else if high then c else b
    let right := if high then d else if low then b else c
    ([if low then c else a] ++ (if turn then [right, left] else [left, right]) ++
      [if high then b else d]).Perm [a, b, c, d] := by
  classical
  rw [List.perm_iff_count]
  intro x
  cases low <;> cases high <;> cases turn <;> simp [List.count_cons] <;> omega

theorem four_perm (p q r s : α) : (four less p q r s).Perm [p, q, r, s] := by
  have hswap : ∀ a b : α, [a, b].Perm [b, a] := fun a b => .swap b a []
  unfold four
  by_cases hpq : less q p <;> by_cases hrs : less s r <;>
    simp only [hpq, hrs, if_true, if_false, Bool.false_eq_true]
  · exact (crossed_perm _ _ _ q p s r).trans ((hswap q p).append (hswap s r))
  · exact (crossed_perm _ _ _ q p r s).trans ((hswap q p).append_right [r, s])
  · exact (crossed_perm _ _ _ p q s r).trans ((hswap s r).append_left [p, q])
  · exact crossed_perm _ _ _ p q r s

theorem insertionFromFour_perm (l : List α) : (insertionFromFour less l).Perm l := by
  unfold insertionFromFour
  split
  · next p q r s l =>
    calc (placeAll less (four less p q r s).reverse l).reverse.Perm
          (placeAll less (four less p q r s).reverse l) := List.reverse_perm _
      _ |>.Perm (l ++ (four less p q r s).reverse) := placeAll_perm less _ l
      _ |>.Perm (l ++ [p, q, r, s]) :=
        ((List.reverse_perm _).trans (four_perm less p q r s)).append_left l
      _ |>.Perm ([p, q, r, s] ++ l) := List.perm_append_comm
  · exact insertion_perm less _

/-! ### Merging from both ends -/

/-- Items are taken off the front of two lists. -/
def Takes (l r : List α) (t : List α × List α × List α) : Prop :=
  ∃ a b, a ++ t.2.1 = l ∧ b ++ t.2.2 = r ∧ t.1.Perm (a ++ b)

theorem takes_nothing (l r : List α) : Takes l r ([], l, r) := ⟨[], [], rfl, rfl, .refl _⟩

theorem Takes.left {l r : List α} {t : List α × List α × List α} (h : Takes l r t) (x : α) :
    Takes (x :: l) r (x :: t.1, t.2) := by
  obtain ⟨a, b, rfl, rfl, hperm⟩ := h
  exact ⟨x :: a, b, rfl, rfl, hperm.cons x⟩

theorem Takes.right {l r : List α} {t : List α × List α × List α} (h : Takes l r t) (x : α) :
    Takes l (x :: r) (x :: t.1, t.2) := by
  obtain ⟨a, b, rfl, rfl, hperm⟩ := h
  exact ⟨a, x :: b, rfl, rfl, (hperm.cons x).trans List.perm_middle.symm⟩

theorem takes_takeLow (n : Nat) (l r : List α) : Takes l r (takeLow less n l r) := by
  fun_induction takeLow less n l r with
  | case1 n a l b r _ taken rest htake ih => rw [htake] at ih; exact ih.right b
  | case2 n a l b r _ taken rest htake ih => rw [htake] at ih; exact ih.left a
  | case3 => exact takes_nothing _ _

theorem takes_takeHigh (n : Nat) (l r : List α) : Takes l r (takeHigh less n l r) := by
  fun_induction takeHigh less n l r with
  | case1 n a l b r _ taken rest htake ih => rw [htake] at ih; exact ih.left a
  | case2 n a l b r _ taken rest htake ih => rw [htake] at ih; exact ih.right b
  | case3 => exact takes_nothing _ _

/-- What is taken from the two ends of a list, with the `k` items between, is the list. -/
theorem perm_of_ends {l a a' rest rest' : List α} {k : Nat} (hfront : a ++ rest = l)
    (hback : a' ++ rest' = l.reverse) (hlength : a.length + a'.length + k = l.length) :
    (a ++ rest.take k ++ a').Perm l := by
  have hl : a ++ rest.take k ++ rest.drop k = rest'.reverse ++ a'.reverse := by
    rw [List.append_assoc, List.take_append_drop, hfront, ← List.reverse_append, hback,
      List.reverse_reverse]
  have hdrop : rest.drop k = a'.reverse := by
    refine (List.append_inj' hl ?_).2
    have := congrArg List.length hfront
    simp only [List.length_append, List.length_drop, List.length_reverse] at this ⊢
    omega
  calc (a ++ rest.take k ++ a').Perm (a ++ rest.take k ++ rest.drop k) := by
        rw [hdrop]; exact (List.reverse_perm a').symm.append_left _
    _ = l := by rw [List.append_assoc, List.take_append_drop, hfront]

/-- The ends of two lists meet, with `j` and `k` items between. -/
theorem perm_of_both {l r : List α} {t u : List α × List α × List α} (ht : Takes l r t)
    (hu : Takes l.reverse r.reverse u) {j k : Nat}
    (hleft : (l.length - t.2.1.length) + (l.length - u.2.1.length) + j = l.length)
    (hright : (r.length - t.2.2.length) + (r.length - u.2.2.length) + k = r.length) :
    (t.1 ++ t.2.1.take j ++ t.2.2.take k ++ u.1.reverse).Perm (l ++ r) := by
  obtain ⟨a, b, ha, hb, hlow⟩ := ht
  obtain ⟨a', b', ha', hb', hhigh⟩ := hu
  have hlen := congrArg List.length ha
  have hlen' := congrArg List.length ha'
  have hren := congrArg List.length hb
  have hren' := congrArg List.length hb'
  simp only [List.length_append, List.length_reverse] at hlen hlen' hren hren'
  have hl := perm_of_ends (k := j) ha ha' (by omega)
  have hr := perm_of_ends (k := k) hb hb' (by omega)
  classical
  rw [List.perm_iff_count] at *
  intro x
  have h₁ := hl x
  have h₂ := hr x
  have h₃ := hlow x
  have h₄ := hhigh x
  simp only [List.count_append, List.count_reverse] at h₁ h₂ h₃ h₄ ⊢
  omega

variable {less}

theorem perm_of_meet? {l r m : List α} (h : meet? less l r = some m) : m.Perm (l ++ r) := by
  have hlow := takes_takeLow less l.length l r
  have hhigh := takes_takeHigh less l.length l.reverse r.reverse
  unfold meet? at h
  generalize takeLow less l.length l r = t at hlow h
  generalize takeHigh less l.length l.reverse r.reverse = u at hhigh h
  have hboth := fun j k => @perm_of_both _ l r t u hlow hhigh j k
  simp only at h
  split at h
  · next hmet =>
    cases h
    simpa using hboth 0 0 hmet.1 hmet.2
  · split at h
    · next hmet =>
      cases h
      simpa using hboth 1 0 hmet.1 hmet.2
    · split at h
      · next hmet =>
        cases h
        simpa using hboth 0 1 hmet.1 hmet.2
      · cases h

theorem rearranges_few? : Rearranges (few? less) := by
  intro l m h
  unfold few? at h
  simp only at h
  split at h
  · cases h; rfl
  · have hpart : ∀ k : List α,
        ((if 8 ≤ l.length then insertionFromFour less else insertion less) k).Perm k := by
      intro k
      split
      · exact insertionFromFour_perm less k
      · exact insertion_perm less k
    have hperm := (perm_of_meet? h).trans ((hpart _).append (hpart _))
    rwa [List.take_append_drop] at hperm

/-! ### Runs -/

theorem extend_append (continues : α → α → Bool) (a : α) (l : List α) :
    (extend continues a l).1 ++ (extend continues a l).2 = l := by
  fun_induction extend continues a l with
  | case1 => rfl
  | case2 a b l _ more rest hextend ih => rw [hextend] at ih; exact congrArg (b :: ·) ih
  | case3 => rfl

theorem stretch_perm (l : List α) : ((stretch less l).1 ++ (stretch less l).2).Perm l := by
  unfold stretch
  split
  · next a b l =>
    split
    · have happend := extend_append less b l
      refine ((List.reverse_perm _).append_right _).trans (.of_eq ?_)
      rw [List.cons_append, List.cons_append, happend]
    · have happend := extend_append (fun y x => !less y x) b l
      refine .of_eq ?_
      simp only [List.cons_append]
      rw [happend]
  · rw [List.append_nil]

theorem perm_of_next? {c : Cut} {l rest : List α} {r : Run α}
    (h : c.next? less l = some (r, rest)) : (r.items ++ rest).Perm l := by
  unfold Cut.next? at h
  simp only at h
  split at h
  · cases h
    exact stretch_perm l
  · split at h
    · obtain ⟨items, hfew, heq⟩ := Option.map_eq_some_iff.1 h
      cases heq
      have hperm := (rearranges_few? _ _ hfew).append_right (l.drop fewItems)
      rwa [List.take_append_drop] at hperm
    · cases h
      rw [List.take_append_drop]

theorem merge_perm (l r : List α) : (merge less l r).Perm (l ++ r) := by
  unfold merge
  split
  · exact List.merge_perm_append _
  · calc (r.reverse.merge l.reverse _).reverse.Perm (r.reverse.merge l.reverse _) :=
          List.reverse_perm _
      _ |>.Perm (r.reverse ++ l.reverse) := List.merge_perm_append _
      _ |>.Perm (l ++ r) := by rw [← List.reverse_append]; exact List.reverse_perm _

/-- The items of the runs on a stack, the nearest one last. -/
def stacked (stack : List (Run α × Nat)) : List α := stack.reverse.flatMap fun e => e.1.items

theorem stacked_cons (r : Run α) (d : Nat) (stack : List (Run α × Nat)) :
    stacked ((r, d) :: stack) = stacked stack ++ r.items := by
  simp [stacked]

section Joining

variable {sort? : List α → Option (List α)} (hsort : Rearranges sort?)

include hsort

theorem perm_of_ordered? {r : Run α} {m : List α} (h : r.ordered? sort? = some m) :
    m.Perm r.items := by
  unfold Run.ordered? at h
  split at h
  · cases h; rfl
  · exact hsort _ _ h

theorem perm_of_join? {r s t : Run α} (h : r.join? less sort? s = some t) :
    t.items.Perm (r.items ++ s.items) := by
  unfold Run.join? at h
  split at h
  · obtain ⟨left, hleft, h⟩ := Option.bind_eq_some_iff.1 h
    obtain ⟨right, hright, h⟩ := Option.bind_eq_some_iff.1 h
    cases h
    exact (merge_perm left right).trans
      ((perm_of_ordered? hsort hleft).append (perm_of_ordered? hsort hright))
  · cases h; rfl

theorem perm_of_joinDeep? {d : Nat} {stack stack' : List (Run α × Nat)} {r r' : Run α}
    (h : joinDeep? less sort? d stack r = some (stack', r')) :
    (stacked stack' ++ r'.items).Perm (stacked stack ++ r.items) := by
  induction stack generalizing r with
  | nil => cases h; rfl
  | cons e stack ih =>
    obtain ⟨left, depth⟩ := e
    rw [joinDeep?] at h
    split at h
    · split at h
      · cases h
      · next joined hjoin =>
        rw [stacked_cons, List.append_assoc]
        exact (ih h).trans ((perm_of_join? hsort hjoin).append_left _)
    · cases h; rfl

omit hsort in
/-- At depth zero all runs are joined. -/
theorem joinDeep?_zero {stack stack' : List (Run α × Nat)} {r r' : Run α}
    (h : joinDeep? less sort? 0 stack r = some (stack', r')) : stack' = [] := by
  induction stack generalizing r with
  | nil => cases h; rfl
  | cons e stack ih =>
    obtain ⟨left, depth⟩ := e
    rw [joinDeep?, if_pos (Nat.zero_le depth)] at h
    split at h
    · cases h
    · exact ih h

theorem perm_of_joinAll? {c : Cut} {length fuel done : Nat} {stack : List (Run α × Nat)}
    {r t : Run α} {rest : List α}
    (h : joinAll? less sort? c length fuel stack r done rest = some t) :
    t.items.Perm (stacked stack ++ r.items ++ rest) := by
  induction fuel generalizing stack r done rest with
  | zero => cases h
  | succ fuel ih =>
    rw [joinAll?] at h
    split at h
    · next hrest =>
      obtain ⟨⟨stack', t'⟩, hjoin, heq⟩ := Option.map_eq_some_iff.1 h
      cases heq
      have hperm := perm_of_joinDeep? hsort hjoin
      cases joinDeep?_zero hjoin
      rw [List.isEmpty_iff.1 hrest, List.append_nil]
      exact hperm
    · split at h
      · cases h
      · next next after hnext =>
        simp only at h
        split at h
        · cases h
        · next stack' r' hjoin =>
          have hperm := ih h
          rw [stacked_cons, List.append_assoc] at hperm
          exact hperm.trans ((perm_of_joinDeep? hsort hjoin).append (perm_of_next? hnext))

theorem rearranges_byRuns? (eager : Bool) : Rearranges (byRuns? less sort? eager) := by
  intro l m h
  obtain ⟨⟨first, rest⟩, hfirst, h⟩ := Option.bind_eq_some_iff.1 h
  obtain ⟨r, hr, h⟩ := Option.bind_eq_some_iff.1 h
  exact (perm_of_ordered? hsort h).trans
    ((perm_of_joinAll? hsort hr).trans (perm_of_next? hfirst))

end Joining

/-! ### Partition -/

theorem part_perm (l : List α) (i : Nat) (accepted : Bool) (test : α → Bool) :
    ((part l i accepted test).1 ++ (part l i accepted test).2).Perm l := by
  rw [part, List.partition_eq_filter_filter]
  simp only [← List.map_append]
  refine ((List.filter_append_perm _ _).map Prod.fst).trans (.of_eq ?_)
  exact List.zipIdx_map_fst 0 l

theorem rearranges_byPartition? (limit : Nat) (bound : Option α) :
    Rearranges (byPartition? less limit bound) := by
  induction limit generalizing bound with
  | zero =>
    intro l m h
    rw [byPartition?] at h
    split at h
    · exact rearranges_few? l m h
    · exact rearranges_byRuns? (fun l m h => by cases h; rfl) true l m h
  | succ limit ih =>
    intro l m h
    rw [byPartition?] at h
    split at h
    · exact rearranges_few? l m h
    · simp only at h
      split at h
      · cases h
      · next p _ =>
        split at h
        · obtain ⟨high, hhigh, rfl⟩ := Option.map_eq_some_iff.1 h
          exact ((ih none _ _ hhigh).append_left _).trans (part_perm l _ true _)
        · obtain ⟨low, hlow, h⟩ := Option.bind_eq_some_iff.1 h
          obtain ⟨high, hhigh, h⟩ := Option.bind_eq_some_iff.1 h
          cases h
          exact ((ih bound _ _ hlow).append (ih (some p) _ _ hhigh)).trans
            (part_perm l _ false _)

/-- Whatever the comparison, a list that can be sorted keeps its items. -/
theorem rearranges_sort? : Rearranges (sort? less) := by
  intro l m h
  unfold sort? at h
  split at h
  · cases h
    exact insertion_perm less l
  · exact rearranges_byRuns? (fun l => rearranges_byPartition? _ none l) _ l m h

end SignalAtlas.RunSort
