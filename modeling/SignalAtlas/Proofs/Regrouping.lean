import Mathlib.Tactic
import SignalAtlas.Proofs.Buckets

/-!
# Regrouping the facts of a graph

`Graph.factsByFile` takes a graph apart into files again. The facts of a file come out by the name
of their signal and no longer in their old order, but each bucket sees them as before. So a graph
that is built from the files that come out has the same buckets (`Graph.regrouping_loses_nothing`).

Files are looked at as a table (`FileSignals.table`), which lists them by path as `Graph.ofFiles`
takes them.
-/

namespace SignalAtlas

/-! ### Files as a table -/

namespace FileSignals

/-- Files by their paths. -/
def table (files : List FileSignals) : SortedMap String FileSignals :=
  .ofList (files.map fun f => (f.filePath, f))

variable {files : List FileSignals}

theorem get?_table (hn : (files.map filePath).Nodup) {k : String} {f : FileSignals} :
    (table files).get? k = some f ↔ f ∈ files ∧ f.filePath = k := by
  have hkeys : ((files.map fun f => (f.filePath, f)).map Prod.fst).Nodup := by
    rwa [List.map_map]
  rw [table, SortedMap.get?_ofList, SortedMap.find?_reverse hkeys,
    SortedMap.find?_eq_some_iff_of_nodup hkeys, List.mem_map]
  constructor
  · rintro ⟨f', hf', he⟩
    cases he
    exact ⟨hf', rfl⟩
  · rintro ⟨hf, rfl⟩
    exact ⟨f, hf, rfl⟩

theorem keyed_table (hn : (files.map filePath).Nodup)
    (hown : ∀ f ∈ files, ∀ x ∈ f.facts, x.filePath = f.filePath) : Keyed (table files) := by
  intro k f hk
  obtain ⟨hf, rfl⟩ := (get?_table hn).1 hk
  exact ⟨rfl, hown f hf⟩

theorem values_table_perm (hn : (files.map filePath).Nodup) : (table files).values.Perm files := by
  have hvalues : ((table files).values.map filePath).Nodup := by
    have hsame : (table files).values.map filePath = (table files).keys := by
      unfold SortedMap.values SortedMap.keys
      rw [List.map_map]
      refine List.map_congr_left fun e he => ?_
      exact ((get?_table hn).1 (SortedMap.get?_eq_some_iff.2 he)).2
    rw [hsame]
    exact (table files).nodup_keys
  refine (List.perm_ext_iff_of_nodup hvalues.of_map hn.of_map).2 fun f => ?_
  rw [SortedMap.mem_values]
  constructor
  · rintro ⟨k, hk⟩
    exact ((get?_table hn).1 hk).1
  · intro hf
    exact ⟨f.filePath, (get?_table hn).2 ⟨hf, rfl⟩⟩

/-- The graph of files is the graph of their table. -/
theorem ofFiles_table (now : UInt64) (hn : (files.map filePath).Nodup) :
    Graph.ofFiles now (table files).values = Graph.ofFiles now files := by
  have hperm := values_table_perm hn
  have hsorted : Graph.byPath (table files).values = Graph.byPath files :=
    (mergeSort_eq_of_perm filePath hperm.symm hn).symm
  rw [Graph.ofFiles_eq, Graph.ofFiles_eq, hsorted, hperm.length_eq]

end FileSignals

/-! ### Equal up to the order of names -/

/-- Lists that agree group by group agree up to their order. -/
theorem Graph.perm_of_named {β : Type} (name : β → String) {l m : List β}
    (h : ∀ k, (named name k l).Perm (named name k m)) : l.Perm m := by
  classical
  refine List.perm_iff_count.2 fun x => ?_
  have hcount : ∀ l : List β, l.count x = (named name (name x) l).count x := fun l =>
    (List.count_filter (by simp)).symm
  rw [hcount l, hcount m, (h (name x)).count_eq]

namespace FileSignals

theorem perm_facts_ofFacts (k : String) (l : List Fact) : (ofFacts k l).facts.Perm l := by
  induction l with
  | nil => exact .nil
  | cons x l ih =>
    cases x with
    | definition d => exact ih.cons (.definition d)
    | emission e =>
      refine List.Perm.trans ?_ (ih.cons (.emission e))
      unfold facts ofFacts
      simp only [List.append_assoc]
      exact List.perm_middle
    | connection c =>
      refine List.Perm.trans ?_ (ih.cons (.connection c))
      exact List.perm_middle

theorem isEmpty_iff (f : FileSignals) : f.isEmpty = true ↔ f.facts = [] := by
  unfold isEmpty facts
  simp [and_assoc]

/-- Files that contribute the same to all buckets have the same facts. -/
theorem perm_facts_of_share {f g : FileSignals} (h : f.share = g.share) : f.facts.Perm g.facts := by
  have hpart : ∀ {β : Type} (name : β → String) (l m : List β),
      (∀ k, Graph.named name k l = Graph.named name k m) → l.Perm m := fun name l m hk =>
    Graph.perm_of_named name fun k => .of_eq (hk k)
  have hd := hpart Definition.name f.definitions g.definitions fun k =>
    congrArg Prod.fst (congrFun h k)
  have he := hpart Emission.signalName f.emissions g.emissions fun k =>
    congrArg (fun s => s.2.1) (congrFun h k)
  have hc := hpart Connection.signalName f.connections g.connections fun k =>
    congrArg (fun s => s.2.2) (congrFun h k)
  exact ((hd.map _).append (he.map _)).append (hc.map _)

end FileSignals

/-! ### Maps with gaps -/

/-- What the values of a map contribute in turn does not depend on keys that contribute nothing. -/
theorem SortedMap.flatMap_values_congr {β γ : Type} (f : β → List γ) {t t' : SortedMap String β}
    (h : ∀ k, ((t.get? k).map f).getD [] = ((t'.get? k).map f).getD []) :
    t.values.flatMap f = t'.values.flatMap f := by
  -- leaving out what contributes nothing changes no concatenation
  have hdrop : ∀ m : SortedMap String β,
      ((m.filter fun _ b => !(f b).isEmpty).map f).values.flatten = m.values.flatMap f := by
    intro m
    rw [values_map]
    unfold SortedMap.filter values
    simp only
    induction m.entries with
    | nil => rfl
    | cons e l ih =>
      rw [List.filter_cons, List.map_cons, List.flatMap_cons, ← ih]
      cases he : f e.2 with
      | nil => simp
      | cons x l => simp [he]
  rw [← hdrop t, ← hdrop t']
  congr 2
  apply ext_get?
  intro k
  rw [get?_map, get?_map, get?_filter, get?_filter]
  have hk := h k
  cases ht : t.get? k with
  | none =>
    rw [ht] at hk
    cases ht' : t'.get? k with
    | none => rfl
    | some b =>
      rw [ht'] at hk
      simp only [Option.map_none, Option.getD_none, Option.map_some, Option.getD_some] at hk
      simp [Option.filter_some, ← hk]
  | some a =>
    rw [ht] at hk
    cases ht' : t'.get? k with
    | none =>
      rw [ht'] at hk
      simp only [Option.map_none, Option.getD_none, Option.map_some, Option.getD_some] at hk
      simp [Option.filter_some, hk]
    | some b =>
      rw [ht'] at hk
      simp only [Option.map_some, Option.getD_some] at hk
      simp only [Option.filter_some, hk]
      split <;> simp [hk]

namespace Keyed

variable {t t' : SortedMap String FileSignals}

/-- Tables whose files contribute the same, where a missing file contributes nothing, have the same
buckets. -/
theorem buckets_eq (h : Keyed t) (h' : Keyed t') (now now' : UInt64)
    (hshare : ∀ k, ((t.get? k).getD (.empty k)).share = ((t'.get? k).getD (.empty k)).share) :
    (Graph.ofFiles now t.values).definitions = (Graph.ofFiles now' t'.values).definitions ∧
      (Graph.ofFiles now t.values).emissions = (Graph.ofFiles now' t'.values).emissions ∧
      (Graph.ofFiles now t.values).connections = (Graph.ofFiles now' t'.values).connections := by
  have hsort : ∀ {β : Type} (name : β → String) (facts : FileSignals → List β)
      (part : List Definition × List Emission × List Connection → List β),
      (∀ f k, Graph.named name k (facts f) = part (f.share k)) →
      (∀ k, facts (.empty k) = []) →
      Graph.buckets name (t.values.flatMap facts) =
        Graph.buckets name (t'.values.flatMap facts) := by
    intro β name facts part hpart hempty
    apply Graph.buckets_congr
    intro n
    rw [Graph.named_flatMap, Graph.named_flatMap]
    apply SortedMap.flatMap_values_congr
    intro k
    have hget : ∀ x : Option FileSignals,
        (x.map fun f => Graph.named name n (facts f)).getD [] =
          part ((x.getD (.empty k)).share n) := by
      intro x
      rw [← hpart]
      cases x with
      | none => simp [hempty, Graph.named]
      | some f => rfl
    rw [hget, hget, hshare]
  rw [Graph.ofFiles_eq, Graph.ofFiles_eq, h.byPath_values, h'.byPath_values]
  exact ⟨hsort Definition.name FileSignals.definitions (·.1) (fun _ _ => rfl) fun _ => rfl,
    hsort Emission.signalName FileSignals.emissions (·.2.1) (fun _ _ => rfl) fun _ => rfl,
    hsort Connection.signalName FileSignals.connections (·.2.2) (fun _ _ => rfl) fun _ => rfl⟩

/-- A table has the facts of another one once its files contribute the same. -/
theorem perm_facts (h : Keyed t) (h' : Keyed t')
    (hshare : ∀ k, ((t.get? k).getD (.empty k)).share = ((t'.get? k).getD (.empty k)).share) :
    (t.values.flatMap FileSignals.facts).Perm (t'.values.flatMap FileSignals.facts) := by
  refine Graph.perm_of_named Fact.filePath fun k => ?_
  have hfile : ∀ {s : SortedMap String FileSignals}, Keyed s →
      Graph.named Fact.filePath k (s.values.flatMap FileSignals.facts) =
        ((s.get? k).getD (.empty k)).facts := by
    intro s hs
    refine (filter_flatMap_values FileSignals.facts Fact.filePath
      (fun k f hf => (hs k f hf).facts) k).trans ?_
    cases s.get? k <;> rfl
  rw [hfile h, hfile h']
  exact FileSignals.perm_facts_of_share (hshare k)

end Keyed

/-! ### Taking a graph apart -/

/-- The facts of some files in a table of their own: every fact once, each file that has facts under
its own path, and no other file. -/
structure Regrouped (files : List FileSignals) (t : SortedMap String FileSignals) : Prop where
  keyed : Keyed t
  once : (t.values.flatMap FileSignals.facts).Perm (files.flatMap FileSignals.facts)
  own : ∀ f ∈ files, f.isEmpty = false → ∃ f', t.get? f.filePath = some f' ∧ f'.facts.Perm f.facts
  only : ∀ k f', t.get? k = some f' → ∃ f ∈ files, f.filePath = k ∧ f.isEmpty = false

theorem Graph.isEmpty_of_factsByFile {g : Graph} {k : String} {f : FileSignals}
    (h : g.factsByFile.get? k = some f) : f.isEmpty = false := by
  rw [get?_factsByFile] at h
  split at h
  · cases h
  · next hne =>
    cases h
    rw [Bool.eq_false_iff]
    intro hempty
    have hperm := FileSignals.perm_facts_ofFacts k (ofPath k g.facts)
    rw [(FileSignals.isEmpty_iff _).1 hempty] at hperm
    exact hne (List.nil_perm.1 hperm)

namespace Regrouped

variable {files : List FileSignals} {t : SortedMap String FileSignals}

theorem factsByFile (now : UInt64) (hn : (files.map FileSignals.filePath).Nodup)
    (hown : ∀ f ∈ files, ∀ x ∈ f.facts, x.filePath = f.filePath) :
    Regrouped files (Graph.ofFiles now files).factsByFile := by
  have hkeyed := FileSignals.keyed_table hn hown
  have hshare := hkeyed.shareOf_ofFiles now
  rw [FileSignals.ofFiles_table now hn] at hshare
  have hempty : ∀ k, (((Graph.ofFiles now files).factsByFile.get? k).getD (.empty k)).facts.Perm
      (((FileSignals.table files).get? k).getD (.empty k)).facts := fun k =>
    FileSignals.perm_facts_of_share (hshare k)
  refine ⟨Graph.keyed_factsByFile _, ?_, fun f hf hne => ?_, fun k f' hk => ?_⟩
  · exact ((Graph.keyed_factsByFile _).perm_facts hkeyed hshare).trans
      ((FileSignals.values_table_perm hn).flatMap_right _)
  · have hperm := hempty f.filePath
    rw [(FileSignals.get?_table hn).2 ⟨hf, rfl⟩, Option.getD_some] at hperm
    cases hk : (Graph.ofFiles now files).factsByFile.get? f.filePath with
    | none =>
      rw [hk] at hperm
      have hnil : f.isEmpty = true := (FileSignals.isEmpty_iff f).2 (List.nil_perm.1 hperm)
      rw [hne] at hnil
      cases hnil
    | some f' =>
      rw [hk] at hperm
      exact ⟨f', rfl, hperm⟩
  · have hne := Graph.isEmpty_of_factsByFile hk
    have hperm := hempty k
    rw [hk, Option.getD_some] at hperm
    cases hf : (FileSignals.table files).get? k with
    | none =>
      rw [hf] at hperm
      have hnil : f'.isEmpty = true := (FileSignals.isEmpty_iff f').2 (List.perm_nil.1 hperm)
      rw [hne] at hnil
      cases hnil
    | some f =>
      rw [hf, Option.getD_some] at hperm
      obtain ⟨hmem, hpath⟩ := (FileSignals.get?_table hn).1 hf
      refine ⟨f, hmem, hpath, ?_⟩
      rw [Bool.eq_false_iff] at hne ⊢
      intro hnil
      rw [(FileSignals.isEmpty_iff f).1 hnil] at hperm
      exact hne ((FileSignals.isEmpty_iff f').2 (List.perm_nil.1 hperm))

/-- There are as many files as had facts. -/
theorem length_values (h : Regrouped files t) (hn : (files.map FileSignals.filePath).Nodup) :
    t.values.length = (files.filter fun f => !f.isEmpty).length := by
  have hsub : ((files.filter fun f => !f.isEmpty).map FileSignals.filePath).Nodup :=
    hn.sublist (List.filter_sublist.map _)
  have hperm : t.keys.Perm ((files.filter fun f => !f.isEmpty).map FileSignals.filePath) := by
    refine (List.perm_ext_iff_of_nodup t.nodup_keys hsub).2 fun k => ?_
    show k ∈ t.keys ↔ _
    rw [SortedMap.mem_keys, List.mem_map]
    constructor
    · rintro ⟨f', hk⟩
      obtain ⟨f, hf, hpath, hne⟩ := h.only k f' hk
      exact ⟨f, List.mem_filter.2 ⟨hf, by simp [hne]⟩, hpath⟩
    · rintro ⟨f, hf, rfl⟩
      obtain ⟨hf, hne⟩ := List.mem_filter.1 hf
      obtain ⟨f', hk, -⟩ := h.own f hf (by simpa using hne)
      exact ⟨f', hk⟩
  have hlen := hperm.length_eq
  rw [List.length_map] at hlen
  rw [← hlen, SortedMap.values, SortedMap.keys, List.length_map, List.length_map]

end Regrouped

namespace Graph

/-- A graph of files with distinct paths can be taken apart by file and built again: no fact is
lost, and the buckets and the counts come out the same, except that files without facts are not
counted. -/
theorem regrouping_loses_nothing {files : List FileSignals} (now now' : UInt64)
    (hpaths : (files.map FileSignals.filePath).Nodup)
    (hown : ∀ f ∈ files, ∀ x ∈ f.facts, x.filePath = f.filePath) :
    let g := ofFiles now files
    let g' := ofFiles now' g.factsByFile.values
    Regrouped files g.factsByFile ∧ g'.definitions = g.definitions ∧ g'.emissions = g.emissions ∧
      g'.connections = g.connections ∧ g'.metadata.signalCount = g.metadata.signalCount ∧
      g'.metadata.emissionCount = g.metadata.emissionCount ∧
      g'.metadata.connectionCount = g.metadata.connectionCount ∧
      g'.metadata.fileCount = (files.filter fun f => !f.isEmpty).length := by
  intro g g'
  have hregrouped := Regrouped.factsByFile now hpaths hown
  have hkeyed := FileSignals.keyed_table hpaths hown
  have hshare := hkeyed.shareOf_ofFiles now
  have hbuckets := (keyed_factsByFile g).buckets_eq hkeyed now' now
  rw [FileSignals.ofFiles_table now hpaths] at hshare hbuckets
  obtain ⟨hd, he, hc⟩ := hbuckets hshare
  have hnames : g'.signalNames = g.signalNames := by
    unfold signalNames
    rw [hd, he, hc]
  exact ⟨hregrouped, hd, he, hc, congrArg List.length hnames, congrArg total he,
    congrArg total hc, hregrouped.length_values hpaths⟩

/-- Three files out of order, one of them without facts, with a signal that two of them emit and
facts that do not come by name. -/
theorem regrouping_loses_nothing_of_three_files :
    let emits : String → String → UInt64 → Emission := fun name file line =>
      ⟨name, file, line, "self", []⟩
    let files : List FileSignals :=
      [⟨"c.gd", [], [emits "b" "c.gd" 1, emits "a" "c.gd" 2, emits "b" "c.gd" 3], []⟩,
        ⟨"b.gd", [], [], []⟩,
        ⟨"a.gd", [⟨"b", [], none, "a.gd", 1, "signal b"⟩], [emits "b" "a.gd" 2],
          [⟨"a", "a.gd", 3, none, "f", [], false⟩]⟩]
    let g := ofFiles 1 files
    let g' := ofFiles 2 g.factsByFile.values
    (files.map FileSignals.filePath).Nodup ∧
      (∀ f ∈ files, ∀ x ∈ f.facts, x.filePath = f.filePath) ∧
      Regrouped files g.factsByFile ∧ g'.definitions = g.definitions ∧ g'.emissions = g.emissions ∧
      g'.connections = g.connections ∧ g'.metadata.signalCount = g.metadata.signalCount ∧
      g'.metadata.emissionCount = g.metadata.emissionCount ∧
      g'.metadata.connectionCount = g.metadata.connectionCount ∧ g'.metadata.fileCount = 2 := by
  intro emits files g g'
  have hpaths : (files.map FileSignals.filePath).Nodup := by decide
  have hown : ∀ f ∈ files, ∀ x ∈ f.facts, x.filePath = f.filePath := by decide
  exact ⟨hpaths, hown, regrouping_loses_nothing 1 2 hpaths hown⟩

end Graph

end SignalAtlas
