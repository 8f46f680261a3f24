import Mathlib.Tactic
import SignalAtlas.Proofs.Regrouping

/-!
# Building a graph

`Graph.ofFiles` files the facts of all files, one file after the other by path. Each bucket comes
out as what the files hold of its sort and name, in this order; the counts are those of the facts
that went in.

Sorting is stable (`StablySorted`): files that share a path keep their order. Where no two files
share one, nothing is left of the order in which the files came.
-/

namespace SignalAtlas

/-! ### Stable sorting -/

/-- The second list has the files of the first one by path, those of one path in their old order. -/
structure StablySorted (files sorted : List FileSignals) : Prop where
  perm : sorted.Perm files
  ordered : sorted.Pairwise fun f g => f.filePath ≤ g.filePath
  stable : ∀ path,
    (sorted.filter fun f => f.filePath = path) = files.filter fun f => f.filePath = path

theorem filter_mergeSort_text {α : Type} (f : α → String) (l : List α) (k : String) :
    ((l.mergeSort fun a b => f a ≤ f b).filter fun a => f a = k) = l.filter fun a => f a = k := by
  have hties : (l.filter fun a => f a = k).Pairwise fun a b => decide (f a ≤ f b) = true := by
    refine List.pairwise_of_forall_mem_list fun a ha b hb => ?_
    have hak : f a = k := by simpa using (List.mem_filter.1 ha).2
    have hbk : f b = k := by simpa using (List.mem_filter.1 hb).2
    have hab : f a = f b := hak.trans hbk.symm
    exact decide_eq_true (hab ▸ String.le_refl (f a))
  -- what is sorted already stays in its order, and sorting adds nothing to it
  have hsub := List.sublist_mergeSort
    (fun a b c hab hbc => by
      rw [decide_eq_true_eq] at hab hbc ⊢; exact String.le_trans hab hbc)
    (fun a b => by
      rcases String.le_total (f a) (f b) with h | h <;> simp [h]) hties List.filter_sublist
  have hsub := hsub.filter fun a => decide (f a = k)
  rw [List.filter_filter] at hsub
  simp only [Bool.and_self] at hsub
  exact (hsub.eq_of_length ((List.mergeSort_perm l _).filter _).length_eq.symm).symm

theorem stablySorted_byPath (files : List FileSignals) :
    StablySorted files (Graph.byPath files) :=
  ⟨List.mergeSort_perm files _, pairwise_mergeSort_text FileSignals.filePath files,
    filter_mergeSort_text FileSignals.filePath files⟩

namespace Graph

/-! ### Contents and number of buckets -/

section Filing

variable {β : Type} (name : β → String)

theorem getD_buckets (l : List β) (k : String) : (buckets name l).getD k [] = named name k l := by
  rw [SortedMap.getD, get?_buckets]
  split
  · next h => rw [h]; rfl
  · rfl

theorem ne_nil_of_get?_buckets {l b : List β} {k : String} (h : (buckets name l).get? k = some b) :
    b ≠ [] := by
  rw [get?_buckets] at h
  split at h
  · cases h
  · next hne =>
    cases h
    exact hne

theorem mem_keys_buckets {l : List β} {k : String} :
    k ∈ (buckets name l).keys ↔ k ∈ l.map name := by
  rw [SortedMap.mem_keys, List.mem_map]
  constructor
  · rintro ⟨b, hb⟩
    rw [get?_buckets] at hb
    split at hb
    · cases hb
    · next hne =>
      obtain ⟨x, hx⟩ := List.exists_mem_of_ne_nil _ hne
      obtain ⟨hx, hk⟩ := List.mem_filter.1 hx
      exact ⟨x, hx, by simpa using hk⟩
  · rintro ⟨x, hx, rfl⟩
    refine ⟨named name (name x) l, ?_⟩
    rw [get?_buckets, if_neg]
    exact List.ne_nil_of_mem (List.mem_filter.2 ⟨hx, by simp⟩)

/-- The buckets of some facts hold each of them once. -/
theorem perm_flatten_values (l : List β) : (buckets name l).values.flatten.Perm l :=
  perm_of_named name fun k => .of_eq (named_flatten_values name l k)

theorem total_eq (m : SortedMap String (List β)) : total m = m.values.flatten.length := by
  unfold total
  suffices h : ∀ (bs : List (List β)) (n : Nat),
      bs.foldl (fun n b => n + b.length) n = n + bs.flatten.length by
    rw [h, Nat.zero_add]
  intro bs
  induction bs with
  | nil => intro n; rfl
  | cons b bs ih =>
    intro n
    rw [List.foldl_cons, ih, List.flatten_cons, List.length_append, Nat.add_assoc]

theorem total_buckets (l : List β) : total (buckets name l) = l.length := by
  rw [total_eq, (perm_flatten_values name l).length_eq]

end Filing

/-! ### Names -/

theorem mem_signalNames (g : Graph) (k : String) :
    k ∈ g.signalNames ↔ k ∈ g.definitions.keys ∨ k ∈ g.emissions.keys ∨ k ∈ g.connections.keys := by
  rw [signalNames, SortedMap.mem_sortedDistinct, List.mem_append, List.mem_append, or_assoc]

theorem nodup_signalNames (g : Graph) : g.signalNames.Nodup :=
  SortedMap.nodup_keys _

theorem mem_signalNames_ofFiles (now : UInt64) (files : List FileSignals) (k : String) :
    k ∈ (ofFiles now files).signalNames ↔
      k ∈ (files.flatMap FileSignals.facts).map Fact.signalName := by
  have hsorted : ∀ f, f ∈ byPath files ↔ f ∈ files := fun f =>
    (stablySorted_byPath files).perm.mem_iff
  rw [mem_signalNames, ofFiles_eq]
  simp only [refresh, mem_keys_buckets, List.mem_map, List.mem_flatMap, hsorted, FileSignals.facts,
    List.mem_append]
  constructor
  · rintro (⟨x, ⟨f, hf, hx⟩, rfl⟩ | ⟨x, ⟨f, hf, hx⟩, rfl⟩ | ⟨x, ⟨f, hf, hx⟩, rfl⟩)
    · exact ⟨.definition x, ⟨f, hf, .inl (.inl ⟨x, hx, rfl⟩)⟩, rfl⟩
    · exact ⟨.emission x, ⟨f, hf, .inl (.inr ⟨x, hx, rfl⟩)⟩, rfl⟩
    · exact ⟨.connection x, ⟨f, hf, .inr ⟨x, hx, rfl⟩⟩, rfl⟩
  · rintro ⟨y, ⟨f, hf, (⟨x, hx, rfl⟩ | ⟨x, hx, rfl⟩) | ⟨x, hx, rfl⟩⟩, rfl⟩
    · exact .inl ⟨x, ⟨f, hf, hx⟩, rfl⟩
    · exact .inr (.inl ⟨x, ⟨f, hf, hx⟩, rfl⟩)
    · exact .inr (.inr ⟨x, ⟨f, hf, hx⟩, rfl⟩)

/-! ### Graphs of files -/

section Files

variable (now : UInt64) (files : List FileSignals)

theorem definitionsOf_ofFiles (k : String) :
    (ofFiles now files).definitionsOf k =
      (byPath files).flatMap fun f => f.definitions.filter fun d => d.name = k := by
  rw [definitionsOf, ofFiles_eq]
  exact (getD_buckets Definition.name _ k).trans (named_flatMap Definition.name _ _ k)

theorem emissionsOf_ofFiles (k : String) :
    (ofFiles now files).emissionsOf k =
      (byPath files).flatMap fun f => f.emissions.filter fun e => e.signalName = k := by
  rw [emissionsOf, ofFiles_eq]
  exact (getD_buckets Emission.signalName _ k).trans (named_flatMap Emission.signalName _ _ k)

theorem connectionsOf_ofFiles (k : String) :
    (ofFiles now files).connectionsOf k =
      (byPath files).flatMap fun f => f.connections.filter fun c => c.signalName = k := by
  rw [connectionsOf, ofFiles_eq]
  exact (getD_buckets Connection.signalName _ k).trans (named_flatMap Connection.signalName _ _ k)

theorem signalCount_ofFiles :
    (ofFiles now files).metadata.signalCount =
      ((files.flatMap FileSignals.facts).map Fact.signalName).toFinset.card := by
  have hcount : (ofFiles now files).metadata.signalCount =
      (ofFiles now files).signalNames.length := rfl
  rw [hcount, ← List.toFinset_card_of_nodup (nodup_signalNames _)]
  congr 1
  ext k
  rw [List.mem_toFinset, List.mem_toFinset, mem_signalNames_ofFiles]

theorem emissionCount_ofFiles :
    (ofFiles now files).metadata.emissionCount = (files.flatMap FileSignals.emissions).length := by
  rw [ofFiles_eq]
  exact (total_buckets Emission.signalName _).trans
    ((stablySorted_byPath files).perm.flatMap_right _).length_eq

theorem connectionCount_ofFiles :
    (ofFiles now files).metadata.connectionCount =
      (files.flatMap FileSignals.connections).length := by
  rw [ofFiles_eq]
  exact (total_buckets Connection.signalName _).trans
    ((stablySorted_byPath files).perm.flatMap_right _).length_eq

/-- The order of files with distinct paths does not matter. -/
theorem sameFacts_of_perm {files files' : List FileSignals} (now now' : UInt64)
    (hn : (files.map FileSignals.filePath).Nodup) (h : files'.Perm files) :
    SameFacts (ofFiles now' files') (ofFiles now files) := by
  have hsorted : byPath files' = byPath files :=
    (mergeSort_eq_of_perm FileSignals.filePath h.symm hn).symm
  exact ofFiles_sameFacts now' now (congrArg (List.map FileSignals.share) hsorted)

end Files

/-- Building a graph files every fact exactly once: a bucket is what the files hold of its sort and
name, file by file in the order of a stable sort by path and in the order of each file. No bucket is
empty, and the counts are those of the facts that went in. Files with distinct paths may come in any
order. -/
theorem building_files_every_fact_once (now : UInt64) (files : List FileSignals) :
    let g := ofFiles now files
    StablySorted files (byPath files) ∧
      (∀ name,
        g.definitionsOf name =
            ((byPath files).flatMap fun f => f.definitions.filter fun d => d.name = name) ∧
          g.emissionsOf name =
            ((byPath files).flatMap fun f => f.emissions.filter fun e => e.signalName = name) ∧
          g.connectionsOf name =
            (byPath files).flatMap fun f => f.connections.filter fun c => c.signalName = name) ∧
      (∀ name,
        (∀ bucket, g.definitions.get? name = some bucket → bucket ≠ []) ∧
          (∀ bucket, g.emissions.get? name = some bucket → bucket ≠ []) ∧
          ∀ bucket, g.connections.get? name = some bucket → bucket ≠ []) ∧
      g.metadata.signalCount =
        ((files.flatMap FileSignals.facts).map Fact.signalName).toFinset.card ∧
      g.metadata.emissionCount = (files.flatMap FileSignals.emissions).length ∧
      g.metadata.connectionCount = (files.flatMap FileSignals.connections).length ∧
      g.metadata.fileCount = files.length ∧
      ((files.map FileSignals.filePath).Nodup →
        ∀ files', files'.Perm files → ∀ now', SameFacts (ofFiles now' files') g) := by
  intro g
  have hbuckets : g = _ := ofFiles_eq now files
  refine ⟨stablySorted_byPath files, fun name => ?_, fun name => ?_, signalCount_ofFiles now files,
    emissionCount_ofFiles now files, connectionCount_ofFiles now files, rfl, ?_⟩
  · exact ⟨definitionsOf_ofFiles now files name, emissionsOf_ofFiles now files name,
      connectionsOf_ofFiles now files name⟩
  · rw [hbuckets]
    exact ⟨fun b => ne_nil_of_get?_buckets Definition.name,
      fun b => ne_nil_of_get?_buckets Emission.signalName,
      fun b => ne_nil_of_get?_buckets Connection.signalName⟩
  · intro hn files' hperm now'
    exact sameFacts_of_perm now now' hn hperm

/-- Three files in two orders, with a signal that two of them emit and one declares, and a file
without facts. -/
theorem building_files_every_fact_once_in_two_orders :
    let emits : String → String → UInt64 → Emission := fun name file line =>
      ⟨name, file, line, "self", []⟩
    let c : FileSignals :=
      ⟨"c.gd", [], [emits "b" "c.gd" 1, emits "a" "c.gd" 2, emits "b" "c.gd" 3], []⟩
    let b : FileSignals := ⟨"b.gd", [], [], []⟩
    let a : FileSignals :=
      ⟨"a.gd", [⟨"b", [], none, "a.gd", 1, "signal b"⟩], [emits "b" "a.gd" 2],
        [⟨"a", "a.gd", 3, none, "f", [], false⟩]⟩
    let g := ofFiles 1 [c, b, a]
    ([c, b, a].map FileSignals.filePath).Nodup ∧ [b, a, c].Perm [c, b, a] ∧
      StablySorted [c, b, a] (byPath [c, b, a]) ∧
      g.emissionsOf "b" = [emits "b" "a.gd" 2, emits "b" "c.gd" 1, emits "b" "c.gd" 3] ∧
      g.metadata.signalCount = 2 ∧ g.metadata.emissionCount = 4 ∧
      g.metadata.connectionCount = 1 ∧ g.metadata.fileCount = 3 ∧
      SameFacts (ofFiles 2 [b, a, c]) g := by
  intro emits c b a g
  have hn : ([c, b, a].map FileSignals.filePath).Nodup := by decide
  have hperm : [b, a, c].Perm [c, b, a] := List.perm_append_singleton c [b, a]
  have hby : byPath [c, b, a] = [a, b, c] :=
    (mergeSort_eq_of_perm FileSignals.filePath (List.reverse_perm [a, b, c]) hn).trans
      (List.mergeSort_of_pairwise (by decide))
  obtain ⟨hsorted, hbuckets, -, hsignals, hemissions, hconnections, hfiles, hsame⟩ :=
    building_files_every_fact_once 1 [c, b, a]
  obtain ⟨-, hemitted, -⟩ := hbuckets "b"
  rw [hby] at hemitted
  exact ⟨hn, hperm, hsorted, hemitted.trans (by decide), hsignals.trans (by decide), hemissions,
    hconnections, hfiles, hsame hn _ hperm 2⟩

end Graph

end SignalAtlas
