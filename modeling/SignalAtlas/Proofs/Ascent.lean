import Mathlib.Tactic
import SignalAtlas.Proofs.Clusterings

/-!
# Greedy ascent

`Partition.settle` makes passes over all nodes and moves each node to its best cluster. What such
moves keep is kept by whole passes and runs (`visits_keep`, `settle_keeps`), above all the weights.

A pass that moves no node ends the run, and further passes would change nothing
(`settle_of_not_moved`), so a run of `passes + 1` passes is one of `passes` passes and another pass
(`settle_succ_pass`), whether it stops early or not.

Over the rational numbers each move adds twice its gain to the modularity and gains more than the
threshold (`quality_move`). So the modularity climbs with each pass that moves a node, by a fixed
amount at least, and as it is at most 1 some pass moves none (`exists_pass_not_moved`).
-/

namespace SignalAtlas

namespace Partition

variable {n : Nat} {net : Network n} {α : Type} [Quantity α]

/-! ### Visits, passes and runs -/

theorem visit_of_eq {p : Partition n} {v : Fin n} (h : best α net p v = p.labelOf v)
    (moved : Bool) : visit α net (p, moved) v = (p, moved) :=
  if_pos h

theorem visit_of_ne {p : Partition n} {v : Fin n} (h : best α net p v ≠ p.labelOf v)
    (moved : Bool) : visit α net (p, moved) v = (move net p v (best α net p v), true) :=
  if_neg h

theorem settle_zero (p : Partition n) : settle α net 0 p = p := rfl

theorem settle_eq (passes : Nat) (p : Partition n) : settle α net (passes + 1) p =
    if (pass α net p).2 then settle α net passes (pass α net p).1 else (pass α net p).1 :=
  rfl

section Kept

variable {P : Partition n → Prop}
  (hP : ∀ p v, P p → best α net p v ≠ p.labelOf v → P (move net p v (best α net p v)))

include hP

/-- What every move to a better cluster keeps is kept by visits. -/
theorem visits_keep (vs : List (Fin n)) {p : Partition n} (hp : P p) (moved : Bool) :
    P (vs.foldl (visit α net) (p, moved)).1 := by
  induction vs generalizing p moved with
  | nil => exact hp
  | cons v vs ih =>
    rw [List.foldl_cons]
    by_cases h : best α net p v = p.labelOf v
    · rw [visit_of_eq h]
      exact ih hp moved
    · rw [visit_of_ne h]
      exact ih (hP p v hp h) true

theorem settle_keeps (passes : Nat) {p : Partition n} (hp : P p) : P (settle α net passes p) := by
  induction passes generalizing p with
  | zero => exact hp
  | succ k ih =>
    have hpass : P (pass α net p).1 := visits_keep hP (List.finRange n) hp false
    rw [settle_eq]
    split
    · exact ih hpass
    · exact hpass

end Kept

theorem moved_of_moved (vs : List (Fin n)) (p : Partition n) :
    (vs.foldl (visit α net) (p, true)).2 = true := by
  induction vs generalizing p with
  | nil => rfl
  | cons v vs ih =>
    rw [List.foldl_cons]
    by_cases h : best α net p v = p.labelOf v
    · rw [visit_of_eq h]
      exact ih p
    · rw [visit_of_ne h]
      exact ih _

/-- Visits that move no node leave all as it was, and found no better cluster for any node. -/
theorem visits_of_not_moved {vs : List (Fin n)} {p : Partition n}
    (h : (vs.foldl (visit α net) (p, false)).2 = false) :
    vs.foldl (visit α net) (p, false) = (p, false) ∧ ∀ v ∈ vs, best α net p v = p.labelOf v := by
  induction vs with
  | nil => exact ⟨rfl, by simp⟩
  | cons v vs ih =>
    rw [List.foldl_cons] at h ⊢
    by_cases hv : best α net p v = p.labelOf v
    · rw [visit_of_eq hv] at h ⊢
      obtain ⟨hvs, hbest⟩ := ih h
      refine ⟨hvs, fun u hu => ?_⟩
      rcases List.mem_cons.1 hu with rfl | hu
      · exact hv
      · exact hbest u hu
    · rw [visit_of_ne hv, moved_of_moved] at h
      cases h

theorem pass_of_not_moved {p : Partition n} (h : (pass α net p).2 = false) :
    (pass α net p).1 = p ∧ ∀ v, best α net p v = p.labelOf v := by
  obtain ⟨hpass, hbest⟩ := visits_of_not_moved h
  exact ⟨congrArg Prod.fst hpass, fun v => hbest v (List.mem_finRange v)⟩

theorem settle_of_not_moved {p : Partition n} (h : (pass α net p).2 = false) (passes : Nat) :
    settle α net passes p = p := by
  cases passes with
  | zero => rfl
  | succ k =>
    rw [settle_eq, h, if_neg (by simp)]
    exact (pass_of_not_moved h).1

/-- Stopping after a pass that moves no node is as good as going on. -/
theorem settle_succ (passes : Nat) (p : Partition n) :
    settle α net (passes + 1) p = settle α net passes (pass α net p).1 := by
  rw [settle_eq]
  split
  · rfl
  · next h =>
    rw [Bool.not_eq_true] at h
    rw [(pass_of_not_moved h).1, settle_of_not_moved h]

theorem settle_succ_pass (passes : Nat) (p : Partition n) :
    settle α net (passes + 1) p = (pass α net (settle α net passes p)).1 := by
  induction passes generalizing p with
  | zero => exact settle_succ 0 p
  | succ k ih => rw [settle_succ, ih, settle_succ]

/-- A run that has come to rest stays as it is. -/
theorem settle_of_le {k passes : Nat} {p : Partition n}
    (h : (pass α net (settle α net k p)).2 = false) (hk : k ≤ passes) :
    settle α net passes p = settle α net k p := by
  induction passes, hk using Nat.le_induction with
  | base => rfl
  | succ m _ ih => rw [settle_succ_pass, ih, (pass_of_not_moved h).1]

/-! ### The best cluster -/

/-- The search for the best cluster ends with what it started with if nothing exceeds that, and else
with a cluster that does. -/
theorem foldl_best {n : Nat} (g : Fin n → ℚ) (l : List (Fin n)) (b : Fin n × ℚ) :
    let r := l.foldl (fun b c => if b.2 < g c then (c, g c) else b) b
    (r = b ∧ ∀ c ∈ l, g c ≤ b.2) ∨ r.1 ∈ l ∧ b.2 < g r.1 := by
  induction l generalizing b with
  | nil => exact .inl ⟨rfl, by simp⟩
  | cons c l ih =>
    intro r
    by_cases hc : b.2 < g c
    · have hr : r = l.foldl (fun b c => if b.2 < g c then (c, g c) else b) (c, g c) := by
        show List.foldl _ (if b.2 < g c then (c, g c) else b) l = _
        rw [if_pos hc]
      rcases ih (c, g c) with ⟨heq, -⟩ | ⟨hmem, hlt⟩
      · rw [hr, heq]
        exact .inr ⟨List.mem_cons_self, hc⟩
      · rw [hr]
        exact .inr ⟨List.mem_cons_of_mem c hmem, hc.trans hlt⟩
    · have hr : r = l.foldl (fun b c => if b.2 < g c then (c, g c) else b) b := by
        show List.foldl _ (if b.2 < g c then (c, g c) else b) l = _
        rw [if_neg hc]
      rcases ih b with ⟨heq, hall⟩ | ⟨hmem, hlt⟩
      · rw [hr]
        refine .inl ⟨heq, fun u hu => ?_⟩
        rcases List.mem_cons.1 hu with rfl | hu
        · exact not_lt.1 hc
        · exact hall u hu
      · rw [hr]
        exact .inr ⟨List.mem_cons_of_mem c hmem, hlt⟩

theorem best_cases (net : Network n) (p : Partition n) (v : Fin n) :
    (best Rat net p v = p.labelOf v ∧
      ∀ c ∈ candidates net p v, gain Rat net p v c ≤ 1 / 10000000000) ∨
    best Rat net p v ∈ candidates net p v ∧
      1 / 10000000000 < gain Rat net p v (best Rat net p v) := by
  have hthreshold : (Quantity.threshold : Rat) = 1 / 10000000000 := by
    rw [show (Quantity.threshold : Rat) = mkRat 1 10000000000 from rfl, Rat.mkRat_eq_div]
    norm_num
  have h := foldl_best (gain Rat net p v) (candidates net p v) (p.labelOf v, Quantity.threshold)
  rw [← hthreshold]
  rcases h with ⟨hr, hall⟩ | h
  · exact .inl ⟨congrArg Prod.fst hr, hall⟩
  · exact .inr h

/-! ### Ascent -/

theorem mem_candidates {p : Partition n} {v c : Fin n} :
    c ∈ candidates net p v ↔ c ≠ p.labelOf v ∧ 0 < net.links p.labelOf v c := by
  unfold candidates Network.links
  rw [List.mem_filter, SortedMap.mem_sortedDistinct, List.mem_map, List.countP_pos_iff, and_comm]
  simp only [decide_eq_true_eq]
  rfl

/-- A move that the loop makes adds twice its gain to the modularity, and that gain exceeds the
threshold. -/
theorem quality_move (hloop : net.Loopless) {p : Partition n} (hp : Weighed net p) {v : Fin n}
    (hv : best Rat net p v ≠ p.labelOf v) :
    net.quality (move net p v (best Rat net p v)).labelOf - net.quality p.labelOf =
        2 * gain Rat net p v (best Rat net p v) ∧
      1 / 10000000000 < gain Rat net p v (best Rat net p v) := by
  constructor
  · rw [labelOf_move, Network.quality_update hloop hv, gain_eq hp]
  · rcases best_cases net p v with ⟨hbest, -⟩ | ⟨-, hgain⟩
    · exact absurd hbest hv
    · exact hgain

theorem weighed_visits (vs : List (Fin n)) {p : Partition n} (hp : Weighed net p) (moved : Bool) :
    Weighed net (vs.foldl (visit α net) (p, moved)).1 :=
  visits_keep (fun _ v hq _ => hq.move v _) vs hp moved

theorem weighed_settle (passes : Nat) : Weighed net (settle α net passes (singletons net)) :=
  settle_keeps (fun _ v hq _ => hq.move v _) passes weighed_singletons

/-- Visits never lower the modularity. -/
theorem quality_le_visits (hloop : net.Loopless) (vs : List (Fin n)) {p : Partition n}
    (hp : Weighed net p) (moved : Bool) :
    net.quality p.labelOf ≤ net.quality (vs.foldl (visit Rat net) (p, moved)).1.labelOf := by
  let P : Partition n → Prop := fun q =>
    Weighed net q ∧ net.quality p.labelOf ≤ net.quality q.labelOf
  have hP : ∀ q v, P q → best Rat net q v ≠ q.labelOf v → P (move net q v (best Rat net q v)) := by
    intro q v ⟨hq, hle⟩ hv
    obtain ⟨hmove, hgain⟩ := quality_move hloop hq hv
    exact ⟨hq.move v _, by linarith⟩
  exact (visits_keep hP vs ⟨hp, le_rfl⟩ moved).2

/-- Visits that move a node raise the modularity by more than twice the threshold. -/
theorem quality_lt_visits (hloop : net.Loopless) {vs : List (Fin n)} {p : Partition n}
    (hp : Weighed net p) (h : (vs.foldl (visit Rat net) (p, false)).2 = true) :
    net.quality p.labelOf + 2 / 10000000000 <
      net.quality (vs.foldl (visit Rat net) (p, false)).1.labelOf := by
  induction vs with
  | nil => cases h
  | cons v vs ih =>
    rw [List.foldl_cons] at h ⊢
    by_cases hv : best Rat net p v = p.labelOf v
    · rw [visit_of_eq hv] at h ⊢
      exact ih h
    · -- the first node that moves raises it, and the later ones do not lower it again
      obtain ⟨hmove, hgain⟩ := quality_move hloop hp hv
      have hrest := quality_le_visits hloop vs (hp.move v (best Rat net p v)) true
      rw [visit_of_ne hv]
      linarith

theorem quality_settle_le_succ (hloop : net.Loopless) (passes : Nat) :
    net.quality (settle Rat net passes (singletons net)).labelOf ≤
      net.quality (settle Rat net (passes + 1) (singletons net)).labelOf := by
  rw [settle_succ_pass]
  exact quality_le_visits hloop _ (weighed_settle passes) false

/-- More passes never lower the modularity. -/
theorem quality_settle_mono (hloop : net.Loopless) {k passes : Nat} (h : k ≤ passes) :
    net.quality (settle Rat net k (singletons net)).labelOf ≤
      net.quality (settle Rat net passes (singletons net)).labelOf :=
  monotone_nat_of_le_succ (f := fun k => net.quality (settle Rat net k (singletons net)).labelOf)
    (quality_settle_le_succ hloop) h

/-- Each pass that moves a node raises the modularity, which is at most 1, so at some time a pass
moves none. -/
theorem exists_pass_not_moved (hloop : net.Loopless) :
    ∃ k, (pass Rat net (settle Rat net k (singletons net))).2 = false := by
  by_contra hc
  have hmoved : ∀ k, (pass Rat net (settle Rat net k (singletons net))).2 = true := by
    intro k
    rw [← Bool.not_eq_false]
    exact fun hk => hc ⟨k, hk⟩
  have hclimb : ∀ k : Nat, net.quality (settle Rat net 0 (singletons net)).labelOf +
      k * (2 / 10000000000) ≤ net.quality (settle Rat net k (singletons net)).labelOf := by
    intro k
    induction k with
    | zero => simp
    | succ k ih =>
      have hpass := quality_lt_visits hloop (weighed_settle k) (hmoved k)
      rw [settle_succ_pass]
      push_cast
      unfold pass
      linarith
  obtain ⟨k, hk⟩ := exists_nat_gt
    ((1 - net.quality (settle Rat net 0 (singletons net)).labelOf) / (2 / 10000000000))
  rw [div_lt_iff₀ (by norm_num)] at hk
  have hbound : net.quality (settle Rat net k (singletons net)).labelOf ≤ 1 :=
    Network.quality_le_one
  linarith [hclimb k]

end Partition

namespace Clustering

open SignalAtlas.Partition

variable {nodes : List String} {edges : List (String × String)}

theorem modularity_detect (h : 0 < (Network.ofNames nodes.eraseDups edges).size) (passes : Nat) :
    let net := Network.ofNames nodes.eraseDups edges
    (detect Rat passes nodes edges).modularity =
      net.quality (settle Rat net passes (singletons net)).labelOf := by
  intro net
  rw [detect_eq h]
  exact modularity_eq (weighed_settle passes)

/-- Every node that the loop moves raises the modularity by twice the computed gain, and so by more
than twice the threshold. So more passes never lower the modularity, which is never below that of
the singletons, and after finitely many passes further ones change nothing. -/
theorem greedy_ascent_converges (nodes : List String) (edges : List (String × String))
    (h : 0 < (Network.ofNames nodes.eraseDups edges).size) :
    let net := Network.ofNames nodes.eraseDups edges
    (∀ (k : Nat) (visited : List (Fin nodes.eraseDups.length)) (v : Fin nodes.eraseDups.length),
      let s := visited.foldl (visit Rat net) (settle Rat net k (singletons net), false)
      let c := best Rat net s.1 v
      c ≠ s.1.labelOf v →
        visit Rat net s v = (move net s.1 v c, true) ∧
        net.quality (move net s.1 v c).labelOf - net.quality s.1.labelOf =
          2 * gain Rat net s.1 v c ∧
        2 / 10000000000 < 2 * gain Rat net s.1 v c) ∧
    (∀ k passes, k ≤ passes → (detect Rat k nodes edges).modularity ≤
      (detect Rat passes nodes edges).modularity) ∧
    (∀ passes, net.quality id ≤ (detect Rat passes nodes edges).modularity) ∧
    ∃ k, ∀ passes ≥ k, detect Rat passes nodes edges = detect Rat k nodes edges := by
  intro net
  have hloop : net.Loopless := Network.loopless_ofNames _ _
  refine ⟨?_, fun k passes hk => ?_, fun passes => ?_, ?_⟩
  · intro k visited v s c hc
    have hs : Weighed net s.1 := weighed_visits visited (weighed_settle k) false
    obtain ⟨hmove, hgain⟩ := quality_move hloop hs hc
    exact ⟨visit_of_ne hc s.2, hmove, by linarith⟩
  · rw [modularity_detect h, modularity_detect h]
    exact quality_settle_mono hloop hk
  · calc net.quality id
      _ = net.quality (settle Rat net 0 (singletons net)).labelOf := by
        rw [settle_zero, labelOf_singletons]
      _ ≤ net.quality (settle Rat net passes (singletons net)).labelOf :=
        quality_settle_mono hloop (Nat.zero_le passes)
      _ = (detect Rat passes nodes edges).modularity := (modularity_detect h passes).symm
  · obtain ⟨k, hk⟩ := exists_pass_not_moved hloop
    refine ⟨k, fun passes hpasses => ?_⟩
    rw [detect_eq h, detect_eq h, settle_of_le hk hpasses]

theorem greedy_ascent_converges_with_double_edge :
    let nodes := ["a", "b", "c", "d"]
    let edges := [("a", "b"), ("b", "a"), ("b", "c"), ("c", "d"), ("d", "d"), ("d", "e")]
    let net := Network.ofNames nodes.eraseDups edges
    0 < net.size ∧
    (∃ v, best Rat net (singletons net) v ≠ (singletons net).labelOf v ∧
      net.quality (move net (singletons net) v (best Rat net (singletons net) v)).labelOf -
        net.quality (singletons net).labelOf =
          2 * gain Rat net (singletons net) v (best Rat net (singletons net) v)) ∧
    (detect Rat 1 nodes edges).modularity ≤ (detect Rat 2 nodes edges).modularity ∧
    net.quality id ≤ (detect Rat 1 nodes edges).modularity ∧
    ∃ k, ∀ passes ≥ k, detect Rat passes nodes edges = detect Rat k nodes edges := by
  intro nodes edges net
  have hsize : 0 < net.size := by decide +kernel
  have hv : best Rat net (singletons net) ⟨0, by decide +kernel⟩ ≠
      (singletons net).labelOf ⟨0, by decide +kernel⟩ := by
    decide +kernel
  obtain ⟨hmove, hmono, hstart, hrest⟩ := greedy_ascent_converges nodes edges hsize
  exact ⟨hsize, ⟨_, hv, (hmove 0 [] _ hv).2.1⟩, hmono 1 2 (by decide), hstart 1, hrest⟩

end Clustering

end SignalAtlas
