import Mathlib.Tactic
import Mathlib.Algebra.BigOperators.Ring.Finset
import SignalAtlas.Community.Clustering

/-!
# The modularity of a labelling

A labelling of the nodes of a network groups them into clusters. Its modularity `Network.quality`
is the sum over all clusters c of e_c / m - (D_c / 2m)², where e_c counts the edges inside c, D_c
adds up the degrees of its nodes and m is the number of all edges. Labels may be taken from any
type, so that a fresh label is at hand where one is wanted.

* `quality_congr`: the modularity depends only on which nodes have the same label;
* `quality_update`: moving a node adds twice its gain, which is computed from the links of the node
  and the masses of the two labels;
* `Partition.Weighed.move`: the weights that a partition keeps are the masses of its labels, and
  stay so when a node is moved;
* `Partition.gain_eq` and `Partition.modularity_eq`: so what is computed from them over the rational
  numbers is the gain and the modularity of the labels.
-/

namespace SignalAtlas

open Finset

namespace Network

variable {n : Nat} {ι : Type} [DecidableEq ι]

/-- No edge leads from a node to itself. -/
def Loopless (net : Network n) : Prop := ∀ e ∈ net.edges, e.1 ≠ e.2

theorem loopless_ofNames (names : List String) (edges : List (String × String)) :
    (ofNames names edges).Loopless := by
  intro e he
  obtain ⟨e', -, he'⟩ := List.mem_filterMap.1 he
  unfold edge? at he'
  split at he'
  · rw [Option.ite_none_left_eq_some] at he'
    obtain ⟨hne, hends⟩ := he'
    cases hends
    exact hne
  · cases he'

/-- The number of edges from a node to nodes with a label. -/
def links (net : Network n) (f : Fin n → ι) (v : Fin n) (c : ι) : Nat :=
  (net.neighbours v).countP fun u => f u = c

/-- The sum of the degrees of the nodes with a label. -/
def mass (net : Network n) (f : Fin n → ι) (c : ι) : Nat := ∑ v with f v = c, net.degree v

/-- The number of edges between nodes with a label. -/
def inner (net : Network n) (f : Fin n → ι) (c : ι) : Nat :=
  net.edges.countP fun e => f e.1 = c ∧ f e.2 = c

/-- The modularity of a labelling. -/
def quality (net : Network n) (f : Fin n → ι) : ℚ :=
  ∑ c ∈ univ.image f,
    ((net.inner f c : ℚ) / net.size - ((net.mass f c : ℚ) / (2 * net.size)) ^ 2)

/-- The number of edges between nodes with the same label. -/
def internal (net : Network n) (f : Fin n → ι) : Nat := net.edges.countP fun e => f e.1 = f e.2

/-! ### Counting edges -/

section Counting

variable (e : Fin n × Fin n) (es : List (Fin n × Fin n)) (f : Fin n → ι) (v : Fin n) (c : ι)

theorem degree_cons : (⟨e :: es⟩ : Network n).degree v =
    (⟨es⟩ : Network n).degree v + if e.1 = v ∨ e.2 = v then 1 else 0 := by
  unfold degree neighbours
  rw [List.filterMap_cons]
  unfold otherEnd?
  by_cases h₁ : e.1 = v
  · simp [h₁]
  · by_cases h₂ : e.2 = v
    · simp [h₁, h₂]
    · simp [h₁, h₂]

theorem links_cons : (⟨e :: es⟩ : Network n).links f v c =
    (⟨es⟩ : Network n).links f v c +
      if e.1 = v then (if f e.2 = c then 1 else 0)
      else if e.2 = v then (if f e.1 = c then 1 else 0) else 0 := by
  unfold links neighbours
  rw [List.filterMap_cons]
  unfold otherEnd?
  by_cases h₁ : e.1 = v
  · simp [h₁, List.countP_cons]
  · by_cases h₂ : e.2 = v
    · simp [h₁, h₂, List.countP_cons]
    · simp [h₁, h₂]

theorem internal_cons : (⟨e :: es⟩ : Network n).internal f =
    (⟨es⟩ : Network n).internal f + if f e.1 = f e.2 then 1 else 0 := by
  unfold internal
  simp [List.countP_cons]

theorem inner_cons : (⟨e :: es⟩ : Network n).inner f c =
    (⟨es⟩ : Network n).inner f c + if f e.1 = c ∧ f e.2 = c then 1 else 0 := by
  unfold inner
  simp [List.countP_cons]

end Counting

variable {net : Network n} {f : Fin n → ι} {S : Finset ι}

/-- Every edge has two ends. -/
theorem sum_degree (h : net.Loopless) : ∑ v, net.degree v = 2 * net.size := by
  obtain ⟨es⟩ := net
  induction es with
  | nil => simp [degree, neighbours, size]
  | cons e es ih =>
    have hne : e.1 ≠ e.2 := h e (by simp)
    have hends : ∀ v, (if e.1 = v ∨ e.2 = v then 1 else 0) =
        (if e.1 = v then 1 else 0) + if e.2 = v then 1 else 0 := by
      intro v
      by_cases h₁ : e.1 = v
      · have h₂ : e.2 ≠ v := fun h₂ => hne (h₁.trans h₂.symm)
        simp [h₁, h₂]
      · simp [h₁]
    have hes : ∑ v, (⟨es⟩ : Network n).degree v = 2 * es.length :=
      ih fun e' he' => h e' (by simp [he'])
    simp only [degree_cons, sum_add_distrib, hends, hes, sum_ite_eq, mem_univ, if_true]
    simp [size]
    omega

/-- Every edge at a node leads to a node with some label. -/
theorem sum_links (hS : ∀ u, f u ∈ S) (v : Fin n) : ∑ c ∈ S, net.links f v c = net.degree v := by
  unfold links degree
  induction net.neighbours v with
  | nil => simp
  | cons u us ih =>
    simp only [List.countP_cons, decide_eq_true_eq, sum_add_distrib, ih, sum_ite_eq, hS u, if_true,
      List.length_cons]

theorem sum_inner (hS : ∀ u, f u ∈ S) : ∑ c ∈ S, net.inner f c = net.internal f := by
  obtain ⟨es⟩ := net
  induction es with
  | nil => simp [inner, internal]
  | cons e es ih =>
    have hone : ∀ c, (if f e.1 = c ∧ f e.2 = c then 1 else 0) =
        if f e.1 = c then (if f e.1 = f e.2 then 1 else 0) else 0 := by
      intro c
      by_cases h₁ : f e.1 = c
      · simp [h₁, eq_comm]
      · simp [h₁]
    simp only [inner_cons, internal_cons, sum_add_distrib, ih, hone, sum_ite_eq, hS e.1, if_true]

theorem sum_mass (h : net.Loopless) (hS : ∀ u, f u ∈ S) : ∑ c ∈ S, net.mass f c = 2 * net.size := by
  rw [← sum_degree h]
  exact sum_fiberwise_of_maps_to (fun u _ => hS u) _

/-- Labels that no node has add nothing. -/
theorem quality_eq_sum (hS : ∀ u, f u ∈ S) : net.quality f =
    ∑ c ∈ S, ((net.inner f c : ℚ) / net.size - ((net.mass f c : ℚ) / (2 * net.size)) ^ 2) := by
  refine sum_subset (fun c hc => ?_) fun c _ hc => ?_
  · obtain ⟨u, -, rfl⟩ := mem_image.1 hc
    exact hS u
  · have hnone : ∀ u, f u ≠ c := fun u hu => hc (mem_image.2 ⟨u, mem_univ u, hu⟩)
    have hinner : net.inner f c = 0 := by simp [inner, hnone]
    have hmass : net.mass f c = 0 := by simp [mass, hnone]
    simp [hinner, hmass]

/-- The modularity in terms of all edges and all nodes. -/
theorem quality_eq (hS : ∀ u, f u ∈ S) : net.quality f =
    (net.internal f : ℚ) / net.size - (∑ c ∈ S, (net.mass f c : ℚ) ^ 2) / (2 * net.size) ^ 2 := by
  rw [quality_eq_sum hS, sum_sub_distrib, ← sum_div, ← sum_inner hS, Nat.cast_sum]
  simp only [div_pow, ← sum_div]

/-- No labelling has a modularity above 1. -/
theorem quality_le_one : net.quality f ≤ 1 := by
  rw [quality_eq fun u => mem_image_of_mem f (mem_univ u)]
  have hinternal : (net.internal f : ℚ) ≤ net.size := by
    exact_mod_cast List.countP_le_length
  have hedges : (net.internal f : ℚ) / net.size ≤ 1 := div_le_one_of_le₀ hinternal (by positivity)
  have hnodes : 0 ≤ (∑ c ∈ univ.image f, (net.mass f c : ℚ) ^ 2) / (2 * net.size) ^ 2 := by
    positivity
  linarith

theorem sum_mass_sq (hS : ∀ u, f u ∈ S) :
    ∑ c ∈ S, (net.mass f c : ℚ) ^ 2 = ∑ u, (net.degree u : ℚ) * net.mass f (f u) := by
  rw [← sum_fiberwise_of_maps_to (t := S) (fun u _ => hS u)]
  refine sum_congr rfl fun c _ => ?_
  have hfiber : ∀ u ∈ univ.filter (fun u => f u = c),
      (net.degree u : ℚ) * net.mass f (f u) = net.degree u * net.mass f c := by
    intro u hu
    rw [(mem_filter.1 hu).2]
  rw [sum_congr rfl hfiber, ← sum_mul, sq, ← Nat.cast_sum]
  rfl

/-- The modularity depends only on which nodes have the same label. -/
theorem quality_congr {κ : Type} [DecidableEq κ] {g : Fin n → κ}
    (h : ∀ u w, f u = f w ↔ g u = g w) : net.quality f = net.quality g := by
  have hinternal : net.internal f = net.internal g := by simp only [internal, h]
  have hmass : ∀ u, net.mass f (f u) = net.mass g (g u) := fun u => by simp only [mass, h]
  rw [quality_eq fun u => mem_image_of_mem f (mem_univ u),
    quality_eq fun u => mem_image_of_mem g (mem_univ u), sum_mass_sq, sum_mass_sq, hinternal]
  · simp only [hmass]
  · exact fun u => mem_image_of_mem g (mem_univ u)
  · exact fun u => mem_image_of_mem f (mem_univ u)

theorem degree_le_mass (net : Network n) {v : Fin n} {c : ι} (h : f v = c) :
    net.degree v ≤ net.mass f c :=
  single_le_sum (f := net.degree) (fun _ _ => Nat.zero_le _) (mem_filter.2 ⟨mem_univ v, h⟩)

theorem inner_eq_zero_of_mass (net : Network n) {c : ι} (h : net.mass f c = 0) :
    net.inner f c = 0 := by
  rw [inner, List.countP_eq_zero]
  intro e he hc
  have hlabel : f e.1 = c := (of_decide_eq_true hc).1
  have hneighbour : e.2 ∈ net.neighbours e.1 := by
    refine List.mem_filterMap.2 ⟨e, he, ?_⟩
    simp [otherEnd?]
  have hdegree : 0 < net.degree e.1 := List.length_pos_of_mem hneighbour
  have := net.degree_le_mass hlabel
  omega

/-! ### Moving a node -/

/-- Half of what moving a node to another label adds to the modularity. -/
def gain (net : Network n) (f : Fin n → ι) (v : Fin n) (x : ι) : ℚ :=
  ((net.links f v x : ℚ) - net.links f v (f v)) / (2 * net.size) -
    net.degree v * (net.mass f x - net.mass f (f v) + net.degree v) /
      (2 * net.size * (2 * net.size))

theorem internal_update (h : net.Loopless) (v : Fin n) (x : ι) :
    net.internal (Function.update f v x) + net.links f v (f v) =
      net.internal f + net.links f v x := by
  obtain ⟨es⟩ := net
  induction es with
  | nil => simp [internal, links, neighbours]
  | cons e es ih =>
    have hne : e.1 ≠ e.2 := h e (by simp)
    have hes := ih fun e' he' => h e' (by simp [he'])
    simp only [internal_cons, links_cons]
    by_cases h₁ : e.1 = v
    · have h₂ : e.2 ≠ v := fun h₂ => hne (h₁.trans h₂.symm)
      simp only [h₁, Function.update_self, Function.update_of_ne h₂, if_true, eq_comm]
      omega
    · by_cases h₂ : e.2 = v
      · simp only [h₁, h₂, Function.update_self, Function.update_of_ne h₁, if_true, if_false,
          eq_comm]
        omega
      · simp only [h₁, h₂, Function.update_of_ne h₁, Function.update_of_ne h₂, if_false]
        omega

theorem mass_update (net : Network n) (f : Fin n → ι) (v : Fin n) (x c : ι) :
    net.mass (Function.update f v x) c + (if f v = c then net.degree v else 0) =
      net.mass f c + if x = c then net.degree v else 0 := by
  unfold mass
  rw [sum_filter, sum_filter, ← add_sum_erase _ _ (mem_univ v), ← add_sum_erase univ _ (mem_univ v)]
  have hrest : ∀ u ∈ univ.erase v, (if Function.update f v x u = c then net.degree u else 0) =
      if f u = c then net.degree u else 0 := by
    intro u hu
    rw [Function.update_of_ne (ne_of_mem_erase hu)]
  rw [sum_congr rfl hrest, Function.update_self]
  omega

/-- Only the label that a node leaves and the one that it gets have another mass. -/
theorem mass_update_sq {v : Fin n} {x : ι} (hx : x ≠ f v) (c : ι) :
    (net.mass (Function.update f v x) c : ℚ) ^ 2 = net.mass f c ^ 2 +
      ((if x = c then 2 * net.mass f c * net.degree v + (net.degree v : ℚ) ^ 2 else 0) +
        if f v = c then (net.degree v : ℚ) ^ 2 - 2 * net.mass f c * net.degree v else 0) := by
  have hc := congrArg (Nat.cast (R := ℚ)) (net.mass_update f v x c)
  push_cast at hc
  by_cases hxc : x = c
  · have hvc : f v ≠ c := fun hvc => hx (hxc.trans hvc.symm)
    rw [if_neg hvc, if_pos hxc] at hc
    have hmass : (net.mass (Function.update f v x) c : ℚ) = net.mass f c + net.degree v := by
      linarith
    rw [if_pos hxc, if_neg hvc, hmass]
    ring
  · by_cases hvc : f v = c
    · rw [if_pos hvc, if_neg hxc] at hc
      have hmass : (net.mass (Function.update f v x) c : ℚ) = net.mass f c - net.degree v := by
        linarith
      rw [if_neg hxc, if_pos hvc, hmass]
      ring
    · rw [if_neg hvc, if_neg hxc, add_zero, add_zero] at hc
      rw [if_neg hxc, if_neg hvc, hc]
      ring

/-- What moving a node adds to the modularity. -/
theorem quality_update (h : net.Loopless) {v : Fin n} {x : ι} (hx : x ≠ f v) :
    net.quality (Function.update f v x) - net.quality f = 2 * net.gain f v x := by
  let S := insert x (univ.image f)
  have hS : ∀ u, f u ∈ S := fun u => mem_insert_of_mem (mem_image_of_mem f (mem_univ u))
  have hS' : ∀ u, Function.update f v x u ∈ S := by
    intro u
    by_cases hu : u = v
    · rw [hu, Function.update_self]
      exact mem_insert_self x _
    · rw [Function.update_of_ne hu]
      exact hS u
  have hinternal : (net.internal (Function.update f v x) : ℚ) =
      net.internal f + net.links f v x - net.links f v (f v) := by
    have := internal_update (f := f) h v x
    have := congrArg (Nat.cast (R := ℚ)) this
    push_cast at this
    linarith
  have hsum : ∑ c ∈ S, (net.mass (Function.update f v x) c : ℚ) ^ 2 =
      ∑ c ∈ S, (net.mass f c : ℚ) ^ 2 +
        ((2 * net.mass f x * net.degree v + (net.degree v : ℚ) ^ 2) +
          ((net.degree v : ℚ) ^ 2 - 2 * net.mass f (f v) * net.degree v)) := by
    simp only [mass_update_sq hx, sum_add_distrib, sum_ite_eq, hS v, mem_insert_self, if_true, S]
  rw [quality_eq hS, quality_eq hS', hinternal, hsum, gain]
  ring

end Network

/-! ### Partitions -/

namespace Partition

variable {n : Nat} {net : Network n} {p : Partition n} {v c : Fin n}

/-- The label of a node. -/
def labelOf (p : Partition n) (v : Fin n) : Fin n := getElem p.label v v.isLt

/-- The weight of a label. -/
def weightOf (p : Partition n) (c : Fin n) : Nat := getElem p.weight c c.isLt

/-- Each weight is the mass of its label. -/
def Weighed (net : Network n) (p : Partition n) : Prop := ∀ c, p.weightOf c = net.mass p.labelOf c

theorem labelOf_singletons : (singletons net).labelOf = id := by
  funext v
  simp [labelOf, singletons]

theorem labelOf_move : (move net p v c).labelOf = Function.update p.labelOf v c := by
  funext u
  by_cases hu : u = v
  · subst hu
    simp [labelOf, move]
  · have hne : (v : Nat) ≠ u := fun h => hu (Fin.ext h.symm)
    simp [labelOf, move, hu, hne]

theorem weighed_singletons : Weighed net (singletons net) := by
  intro c
  rw [labelOf_singletons]
  simp [weightOf, singletons, Network.mass, filter_eq']

theorem getElem_set_set (w : Vector Nat n) {i j k : Nat} (hi : i < n) (hj : j < n) (hk : k < n)
    (d : Nat) : ((w.set i (w[i] - d)).set j ((w.set i (w[i] - d))[j] + d))[k] =
      if j = k then (if i = k then w[k] - d else w[k]) + d
      else if i = k then w[k] - d else w[k] := by
  simp only [Vector.getElem_set]
  by_cases hjk : j = k
  · subst hjk
    by_cases hik : i = j
    · simp [hik]
    · simp [hik]
  · by_cases hik : i = k
    · simp [hjk, hik]
    · simp [hjk, hik]

theorem weightOf_move (net : Network n) (p : Partition n) (v c c' : Fin n) :
    (move net p v c).weightOf c' =
      if c = c' then
        (if p.labelOf v = c' then p.weightOf c' - net.degree v else p.weightOf c') + net.degree v
      else if p.labelOf v = c' then p.weightOf c' - net.degree v else p.weightOf c' := by
  simp only [Fin.ext_iff]
  exact getElem_set_set p.weight (p.labelOf v).isLt c.isLt c'.isLt (net.degree v)

/-- Moving a node keeps the weights right. -/
theorem Weighed.move (h : Weighed net p) (v c : Fin n) : Weighed net (move net p v c) := by
  intro c'
  have hmass := net.mass_update p.labelOf v c c'
  rw [labelOf_move, weightOf_move, h c']
  by_cases hv : p.labelOf v = c'
  · have hhome := net.degree_le_mass hv
    by_cases hc : c = c'
    · simp only [hv, hc, if_true] at hmass ⊢
      omega
    · simp only [hv, hc, if_true, if_false] at hmass ⊢
      omega
  · by_cases hc : c = c'
    · simp only [hv, hc, if_true, if_false] at hmass ⊢
      omega
    · simp only [hv, hc, if_false] at hmass ⊢
      omega

theorem ofNat_eq (k : Nat) : (Quantity.ofNat k : Rat) = k := rfl

theorem gain_eq (h : Weighed net p) : gain Rat net p v c = net.gain p.labelOf v c := by
  have hc : p.weight[c] = net.mass p.labelOf c := h c
  have hhome : p.weight[p.label[v]] = net.mass p.labelOf (p.labelOf v) := h (p.labelOf v)
  unfold gain Network.gain
  simp only [ofNat_eq, hc, hhome, Nat.cast_mul, Nat.cast_ofNat]
  rfl

theorem share_eq (h : Weighed net p) : share Rat net p c =
    (net.inner p.labelOf c : ℚ) / net.size - ((net.mass p.labelOf c : ℚ) / (2 * net.size)) ^ 2 := by
  have hc : p.weight[c] = net.mass p.labelOf c := h c
  unfold share
  simp only [ofNat_eq, hc, sq, Nat.cast_mul, Nat.cast_ofNat]
  rfl

theorem sum_filter_eq {l : List (Fin n)} {q : Fin n → Bool} {g : Fin n → ℚ}
    (h : ∀ c, q c = false → g c = 0) : ((l.filter q).map g).sum = (l.map g).sum := by
  induction l with
  | nil => rfl
  | cons c l ih =>
    by_cases hc : q c = true
    · simp [hc, ih]
    · simp [hc, ih, h c (by simpa using hc)]

/-- The modularity that is computed is that of the labels. -/
theorem modularity_eq (h : Weighed net p) : modularity Rat net p = net.quality p.labelOf := by
  have hempty : ∀ c, decide (0 < p.weight[c]) = false → share Rat net p c = 0 := by
    intro c hc
    have hmass : net.mass p.labelOf c = 0 := by
      rw [← h c]
      simpa [weightOf] using hc
    rw [share_eq h, net.inner_eq_zero_of_mass hmass, hmass]
    simp
  have hsum : modularity Rat net p =
      (((List.finRange n).filter fun c => 0 < p.weight[c]).map (share Rat net p)).sum := by
    rw [List.sum_eq_foldl]
    rfl
  rw [hsum, sum_filter_eq hempty, ← Fin.sum_univ_def, Network.quality_eq_sum fun u => mem_univ _]
  simp only [share_eq h]

end Partition

end SignalAtlas
