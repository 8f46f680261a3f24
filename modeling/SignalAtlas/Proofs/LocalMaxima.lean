import Mathlib.Tactic
import SignalAtlas.Proofs.Ascent

/-!
# Local maxima of the modularity

A run that comes to rest has found, for each node, no linked cluster that gains more than the
threshold. It has not tried the clusters that a node has no edge to, nor a new one. That these gain
no more either follows from a balance: the pulls of all labels on a node add up to the square of
its share of the degrees (`Network.sum_pull`), while a label without an edge to the node does not
draw it (`Network.pull_le_zero`). So a node that gains little where it is linked is held well enough
where it is (`Network.neg_le_pull`), and leaving gains as little (`Network.quality_update_le`).
-/

namespace SignalAtlas

open Finset

namespace Network

variable {n : Nat} {ι : Type} [DecidableEq ι] {net : Network n} {f : Fin n → ι} {v : Fin n} {ε : ℚ}

/-- How strongly a label draws a node: its share of the edges of the node beyond what the degrees
of the other nodes with that label would have it. -/
def pull (net : Network n) (f : Fin n → ι) (v : Fin n) (c : ι) : ℚ :=
  net.links f v c / (2 * net.size) -
    net.degree v * (net.mass f c - if f v = c then (net.degree v : ℚ) else 0) /
      (2 * net.size * (2 * net.size))

theorem gain_eq_pull {x : ι} (hx : x ≠ f v) :
    net.gain f v x = net.pull f v x - net.pull f v (f v) := by
  rw [gain, pull, pull, if_neg hx.symm, if_pos rfl]
  ring

/-- The pulls of all labels add up to something that is not negative: a node has all its edges, and
only its own degree is left out of the degrees. -/
theorem sum_pull (hloop : net.Loopless) (hsize : 0 < net.size) {S : Finset ι} (hS : ∀ u, f u ∈ S)
    (v : Fin n) : ∑ c ∈ S, net.pull f v c = (net.degree v / (2 * net.size)) ^ 2 := by
  have hlinks : ∑ c ∈ S, (net.links f v c : ℚ) = net.degree v := by
    exact_mod_cast sum_links hS v
  have hmass : ∑ c ∈ S, (net.mass f c : ℚ) = 2 * net.size := by
    exact_mod_cast sum_mass hloop hS
  have hsize' : (net.size : ℚ) ≠ 0 := by
    exact_mod_cast hsize.ne'
  unfold pull
  rw [sum_sub_distrib, ← sum_div, ← sum_div, ← mul_sum, sum_sub_distrib, sum_ite_eq, if_pos (hS v),
    hlinks, hmass]
  field_simp
  ring

theorem pull_le_zero {c : ι} (hc : c ≠ f v) (hlinks : net.links f v c = 0) :
    net.pull f v c ≤ 0 := by
  rw [pull, hlinks, if_neg hc.symm]
  have : 0 ≤ (net.degree v : ℚ) * (net.mass f c - 0) / (2 * net.size * (2 * net.size)) := by
    rw [sub_zero]
    positivity
  simpa using this

/-- A node that gains at most `ε` at each label that it is linked to is drawn by its own label with
`-ε` at least: otherwise no label would draw it, and the pulls would add up to less than zero. -/
theorem neg_le_pull (hloop : net.Loopless) (hsize : 0 < net.size) (hε : 0 ≤ ε)
    (h : ∀ c, c ≠ f v → 0 < net.links f v c → net.gain f v c ≤ ε) : -ε ≤ net.pull f v (f v) := by
  by_contra hhome
  rw [not_le] at hhome
  have hpull : ∀ c ∈ univ.image f, net.pull f v c ≤ 0 := by
    intro c _
    by_cases hc : c = f v
    · rw [hc]
      linarith
    · rcases Nat.eq_zero_or_pos (net.links f v c) with hlinks | hlinks
      · exact pull_le_zero hc hlinks
      · have hgain := h c hc hlinks
        rw [gain_eq_pull hc] at hgain
        linarith
  have hmem : ∀ u, f u ∈ univ.image f := fun u => mem_image_of_mem f (mem_univ u)
  have hsum : ∑ c ∈ univ.image f, net.pull f v c < ∑ c ∈ univ.image f, (0 : ℚ) :=
    sum_lt_sum hpull ⟨f v, hmem v, by linarith⟩
  rw [sum_pull hloop hsize hmem, sum_const_zero] at hsum
  exact absurd hsum (not_lt.2 (sq_nonneg _))

/-- If a node gains at most `ε` at each label that it is linked to, then so it does everywhere. -/
theorem quality_update_le (hloop : net.Loopless) (hsize : 0 < net.size) (hε : 0 ≤ ε)
    (h : ∀ c, c ≠ f v → 0 < net.links f v c → net.gain f v c ≤ ε) (x : ι) :
    net.quality (Function.update f v x) ≤ net.quality f + 2 * ε := by
  by_cases hx : x = f v
  · rw [hx, Function.update_eq_self]
    linarith
  · have hgain : net.gain f v x ≤ ε := by
      rcases Nat.eq_zero_or_pos (net.links f v x) with hlinks | hlinks
      · have hhome := neg_le_pull hloop hsize hε h
        have hpull := pull_le_zero hx hlinks
        rw [gain_eq_pull hx]
        linarith
      · exact h x hx hlinks
    have hupdate := quality_update hloop hx
    linarith

/-- Gains depend only on which nodes have the same label. -/
theorem gain_congr {κ : Type} [DecidableEq κ] {g : Fin n → κ} (h : ∀ u w, f u = f w ↔ g u = g w)
    (v u : Fin n) : net.gain f v (f u) = net.gain g v (g u) := by
  simp only [gain, links, mass, h]

end Network

/-- At rest no node gains more than the threshold where it is linked. -/
theorem Partition.gain_le_of_not_moved {n : Nat} {net : Network n} {p : Partition n}
    (hp : Weighed net p) (h : (pass Rat net p).2 = false) {v c : Fin n} (hc : c ≠ p.labelOf v)
    (hlinks : 0 < net.links p.labelOf v c) : net.gain p.labelOf v c ≤ 1 / 10000000000 := by
  have hbest : best Rat net p v = p.labelOf v := (pass_of_not_moved h).2 v
  rw [← gain_eq hp]
  rcases best_cases net p v with ⟨-, hgain⟩ | ⟨hmem, -⟩
  · exact hgain c (mem_candidates.2 ⟨hc, hlinks⟩)
  · rw [hbest] at hmem
    exact absurd rfl (mem_candidates.1 hmem).1

namespace Clustering

open SignalAtlas.Partition

/-- If detection ends because a pass moves no node, then no other place for any one node, be it a
cluster with or without an edge to it or a new one, raises the modularity by more than twice the
threshold. -/
theorem clustering_at_rest_is_locally_maximal (nodes : List String) (edges : List (String × String))
    (passes : Nat) (hsize : 0 < (Network.ofNames nodes.eraseDups edges).size) :
    let net := Network.ofNames nodes.eraseDups edges
    let cluster := fun v => (detect Rat passes nodes edges).clusterOf.get? (nodes.eraseDups.get v)
    (∃ k < passes, (pass Rat net (settle Rat net k (singletons net))).2 = false) →
    ∀ v place, net.quality (Function.update cluster v place) ≤
      net.quality cluster + 2 * (1 / 10000000000) := by
  intro net cluster hrest v place
  obtain ⟨k, hk, hmoved⟩ := hrest
  let p := settle Rat net passes (singletons net)
  have hp : Weighed net p := weighed_settle passes
  have hpass : (pass Rat net p).2 = false := by
    rw [show p = settle Rat net k (singletons net) from settle_of_le hmoved hk.le]
    exact hmoved
  have hcluster : ∀ u w, cluster u = cluster w ↔ p.labelOf u = p.labelOf w :=
    clusterOf_detect_eq_iff hsize passes
  refine Network.quality_update_le (Network.loopless_ofNames _ _) hsize (by norm_num) ?_ place
  intro c hc hlinks
  -- a cluster with an edge to the node has a name in it, and so a label of its own
  obtain ⟨u, -, hu⟩ := List.countP_pos_iff.1 hlinks
  obtain rfl : cluster u = c := of_decide_eq_true hu
  rw [Network.gain_congr hcluster]
  refine gain_le_of_not_moved hp hpass (fun h => hc ((hcluster u v).2 h)) ?_
  simpa only [Network.links, hcluster] using hlinks

theorem clustering_at_rest_is_locally_maximal_for_two_pairs :
    let nodes := ["a", "b", "c", "d"]
    let edges := [("a", "b"), ("b", "a"), ("b", "c"), ("c", "d"), ("d", "d"), ("d", "e")]
    let net := Network.ofNames nodes.eraseDups edges
    let cluster := fun v =>
      (detect Rat defaultPasses nodes edges).clusterOf.get? (nodes.eraseDups.get v)
    0 < net.size ∧
    (∃ k < defaultPasses, (pass Rat net (settle Rat net k (singletons net))).2 = false) ∧
    (cluster ⟨1, by decide +kernel⟩ ≠ cluster ⟨2, by decide +kernel⟩) ∧
    ∀ v place, net.quality (Function.update cluster v place) ≤
      net.quality cluster + 2 * (1 / 10000000000) := by
  intro nodes edges net cluster
  have hsize : 0 < net.size := by decide +kernel
  have hrest : ∃ k < defaultPasses, (pass Rat net (settle Rat net k (singletons net))).2 = false :=
    ⟨1, by decide, by decide +kernel⟩
  have hpairs : cluster ⟨1, by decide +kernel⟩ ≠ cluster ⟨2, by decide +kernel⟩ := by
    decide +kernel
  exact ⟨hsize, hrest, hpairs,
    clustering_at_rest_is_locally_maximal nodes edges defaultPasses hsize hrest⟩

end Clustering

end SignalAtlas
