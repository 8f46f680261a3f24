import Mathlib.Tactic
import SignalAtlas.Proofs.Building
import SignalAtlas.Proofs.Traversals

/-!
# The order of facts in a bucket

A fact has the line of the node that it was found at (`Extract.line_of_mem_factsAt`). A walk takes
the nodes of a tree in preorder, so where rows never decrease in preorder the facts of a script come
line by line (`Script.pairwise_line_extract`). Building a graph puts the facts of one file after
those of another, by path. So every bucket is sorted by path and line (`Graph.InSourceOrder`).

Taking a graph apart by file and building it again changes no bucket (`Keyed.sameBuckets_regroup`),
and so neither does doing this any number of times (`Keyed.sameBuckets_rebuilt`).
-/

namespace SignalAtlas

/-- The line of a fact, counted from one. -/
def Fact.line : Fact → UInt64
  | .definition d => d.line
  | .emission e => e.line
  | .connection c => c.line

/-! ### Lines of facts -/

/-- A line is one more than a row: rows are too small for the sum to overflow. -/
theorem Node.toNat_line (n : Node) : n.line.toNat = n.tag.row.toNat + 1 := by
  have hrow := n.tag.row.toNat_lt
  rw [line, UInt64.toNat_add, UInt32.toNat_toUInt64]
  exact Nat.mod_eq_of_lt (by change _ + 1 < _; omega)

namespace Extract

variable {s : Script} {file : String}

theorem site_of_callOf? {n : Node} {c : Call} (h : callOf? s n = some c) : c.site = n := by
  unfold callOf? at h
  split at h
  · cases h
  · split at h
    · cases h
      rfl
    · split at h
      · split at h
        · split at h
          · cases h
          · cases h
            rfl
        · cases h
      · cases h

theorem site_of_mem_chainCalls {site : Node} {before parts : List Node} {c : Call}
    (h : c ∈ chainCalls s site before parts) : c.site = site := by
  induction parts generalizing before with
  | nil => cases h
  | cons part parts ih =>
    rw [chainCalls] at h
    split at h
    · split at h
      · rcases List.mem_cons.1 h with rfl | h
        · rfl
        · exact ih h
      · exact ih h
    · exact ih h

theorem line_of_callFact? {c : Call} {x : Fact} (h : callFact? s file c = some x) :
    x.line = c.site.line := by
  rcases callFact?_cases h with ⟨e, rfl, -, hline⟩ | ⟨k, rfl, -, hline⟩
  · exact hline
  · exact hline

/-- A fact has the line of the node that it was found at. -/
theorem line_of_mem_factsAt {n : Node} {x : Fact} (h : x ∈ factsAt s file n) :
    x.line = n.line := by
  unfold factsAt at h
  split at h
  · rw [Option.mem_toList] at h
    obtain ⟨d, hd, rfl⟩ := Option.map_eq_some_iff.1 h
    obtain ⟨name, -, rfl⟩ := Option.map_eq_some_iff.1 hd
    rfl
  · split at h
    · rw [Option.mem_toList] at h
      obtain ⟨c, hc, hx⟩ := Option.bind_eq_some_iff.1 h
      rw [line_of_callFact? hx, site_of_callOf? hc]
    · split at h
      · obtain ⟨c, hc, hx⟩ := List.mem_filterMap.1 h
        rw [line_of_callFact? hx, site_of_mem_chainCalls hc]
      · cases h

end Extract

namespace Script

variable {s : Script} {file : String}

/-- The rows at which the nodes of a tree start never decrease in preorder. -/
def RowsIncrease (s : Script) : Prop := s.root.preorder.Pairwise fun a b => a.tag.row ≤ b.tag.row

/-- The facts that the walk through a script comes upon. -/
def found (s : Script) (file : String) : List Fact := s.walk.flatMap (Extract.factsAt s file)

theorem pairwise_line_found (h : s.RowsIncrease) :
    (s.found file).Pairwise fun x y => x.line ≤ y.line := by
  have hwalk : s.walk.Pairwise fun a b => a.tag.row ≤ b.tag.row := by
    rw [walk_eq]
    exact h.sublist List.filter_sublist
  refine List.pairwise_flatMap.2 ⟨fun n _ => ?_, hwalk.imp fun {a b} hab x hx y hy => ?_⟩
  · -- facts of one node share its line
    refine List.pairwise_of_forall_mem_list fun x hx y hy => UInt64.le_of_eq ?_
    rw [Extract.line_of_mem_factsAt hx, Extract.line_of_mem_factsAt hy]
  · rw [Extract.line_of_mem_factsAt hx, Extract.line_of_mem_factsAt hy, UInt64.le_iff_toNat_le,
      a.toNat_line, b.toNat_line]
    exact Nat.succ_le_succ (UInt32.le_iff_toNat_le.1 hab)

/-- The facts of each sort of a script come line by line. -/
theorem pairwise_line_extract (h : s.RowsIncrease) :
    ((s.extract file).definitions.Pairwise fun a b => a.line ≤ b.line) ∧
      ((s.extract file).emissions.Pairwise fun a b => a.line ≤ b.line) ∧
      (s.extract file).connections.Pairwise fun a b => a.line ≤ b.line := by
  have hsort : ∀ {β : Type} (sort? : Fact → Option β) (line : β → UInt64),
      (∀ x b, sort? x = some b → x.line = line b) →
      ((s.found file).filterMap sort?).Pairwise fun a b => line a ≤ line b := by
    intro β sort? line hline
    refine (pairwise_line_found h).filterMap sort? fun x y hxy a ha b hb => ?_
    rwa [hline x a ha, hline y b hb] at hxy
  refine ⟨hsort Fact.definition? Definition.line fun x b hx => ?_,
    hsort Fact.emission? Emission.line fun x b hx => ?_,
    hsort Fact.connection? Connection.line fun x b hx => ?_⟩ <;> cases x <;> cases hx <;> rfl

theorem exists_node_of_mem_extract {x : Fact} (h : x ∈ (s.extract file).facts) :
    ∃ n ∈ s.root.preorder, x.line.toNat = n.tag.row.toNat + 1 := by
  have hfound := (FileSignals.perm_facts_ofFacts file (s.found file)).mem_iff.1 h
  obtain ⟨n, hn, hx⟩ := List.mem_flatMap.1 hfound
  rw [walk_eq] at hn
  refine ⟨n, (List.mem_filter.1 hn).1, ?_⟩
  rw [Extract.line_of_mem_factsAt hx, n.toNat_line]

end Script

/-! ### Buckets of a graph -/

/-- Items come by path, and those of one path by line. -/
def SortedByPlace {β : Type} (path : β → String) (line : β → UInt64) (l : List β) : Prop :=
  l.Pairwise fun a b => path a < path b ∨ path a = path b ∧ line a ≤ line b

namespace Graph

/-- Every bucket of a graph is sorted by path and line. -/
structure InSourceOrder (g : Graph) : Prop where
  definitions : ∀ name, SortedByPlace Definition.filePath Definition.line (g.definitionsOf name)
  emissions : ∀ name, SortedByPlace Emission.filePath Emission.line (g.emissionsOf name)
  connections : ∀ name, SortedByPlace Connection.filePath Connection.line (g.connectionsOf name)

theorem sortedByPlace_flatMap {β : Type} {path : β → String} {line : β → UInt64}
    {facts : FileSignals → List β} {files : List FileSignals}
    (hn : (files.map FileSignals.filePath).Nodup)
    (hpath : ∀ f ∈ files, ∀ x ∈ facts f, path x = f.filePath)
    (hline : ∀ f ∈ files, (facts f).Pairwise fun a b => line a ≤ line b) :
    SortedByPlace path line ((byPath files).flatMap facts) := by
  have hmem : ∀ f, f ∈ byPath files → f ∈ files := fun f => List.mem_mergeSort.1
  have hlt : (byPath files).Pairwise fun f g => f.filePath < g.filePath :=
    pairwise_lt_mergeSort FileSignals.filePath hn
  refine List.pairwise_flatMap.2
    ⟨fun f hf => ?_, hlt.imp_of_mem fun {f g} hf hg hfg x hx y hy => ?_⟩
  · refine (hline f (hmem f hf)).imp_of_mem fun {a b} ha hb hab => .inr ⟨?_, hab⟩
    rw [hpath f (hmem f hf) a ha, hpath f (hmem f hf) b hb]
  · left
    rwa [hpath f (hmem f hf) x hx, hpath g (hmem g hg) y hy]

/-- The graph of the scripts of a forest, each under its path. -/
def ofForest (now : UInt64) (forest : List (String × Script)) : Graph :=
  ofFiles now (forest.map fun e => e.2.extract e.1)

variable {forest : List (String × Script)}

theorem map_filePath_extract (forest : List (String × Script)) :
    (forest.map fun e => e.2.extract e.1).map FileSignals.filePath = forest.map Prod.fst := by
  rw [List.map_map]
  rfl

theorem facts_of_mem_extracts (forest : List (String × Script)) :
    ∀ f ∈ forest.map fun e => e.2.extract e.1, ∀ x ∈ f.facts, x.filePath = f.filePath := by
  intro f hf
  obtain ⟨e, -, rfl⟩ := List.mem_map.1 hf
  exact (e.2.isOf_extract e.1).facts

theorem inSourceOrder_ofForest (now : UInt64) (hpaths : (forest.map Prod.fst).Nodup)
    (hrows : ∀ e ∈ forest, e.2.RowsIncrease) : (ofForest now forest).InSourceOrder := by
  have hn : ((forest.map fun e => e.2.extract e.1).map FileSignals.filePath).Nodup := by
    rwa [map_filePath_extract]
  have hown := facts_of_mem_extracts forest
  have hlines : ∀ f ∈ forest.map fun e => e.2.extract e.1,
      (f.definitions.Pairwise fun a b => a.line ≤ b.line) ∧
        (f.emissions.Pairwise fun a b => a.line ≤ b.line) ∧
        f.connections.Pairwise fun a b => a.line ≤ b.line := by
    intro f hf
    obtain ⟨e, he, rfl⟩ := List.mem_map.1 hf
    exact Script.pairwise_line_extract (hrows e he)
  refine ⟨fun name => ?_, fun name => ?_, fun name => ?_⟩
  · rw [ofForest, definitionsOf_ofFiles]
    exact sortedByPlace_flatMap hn
      (fun f hf x hx => hown f hf (.definition x) (by
        simpa [FileSignals.facts] using (List.mem_filter.1 hx).1))
      fun f hf => (hlines f hf).1.sublist List.filter_sublist
  · rw [ofForest, emissionsOf_ofFiles]
    exact sortedByPlace_flatMap hn
      (fun f hf x hx => hown f hf (.emission x) (by
        simpa [FileSignals.facts] using (List.mem_filter.1 hx).1))
      fun f hf => (hlines f hf).2.1.sublist List.filter_sublist
  · rw [ofForest, connectionsOf_ofFiles]
    exact sortedByPlace_flatMap hn
      (fun f hf x hx => hown f hf (.connection x) (by
        simpa [FileSignals.facts] using (List.mem_filter.1 hx).1))
      fun f hf => (hlines f hf).2.2.sublist List.filter_sublist

theorem exists_file_of_mem_facts {now : UInt64} {files : List FileSignals} {x : Fact}
    (h : x ∈ (ofFiles now files).facts) : ∃ f ∈ files, x ∈ f.facts := by
  have hin : ∀ {β : Type} (name : β → String) (sort : FileSignals → List β) {b : β},
      b ∈ (buckets name ((byPath files).flatMap sort)).values.flatten →
        ∃ f ∈ files, b ∈ sort f := by
    intro β name sort b hb
    obtain ⟨f, hf, hb⟩ := List.mem_flatMap.1 ((perm_flatten_values name _).mem_iff.1 hb)
    exact ⟨f, List.mem_mergeSort.1 hf, hb⟩
  rw [ofFiles_eq] at h
  simp only [facts, refresh, List.mem_append, List.mem_map] at h
  rcases h with (⟨b, hb, rfl⟩ | ⟨b, hb, rfl⟩) | ⟨b, hb, rfl⟩
  · obtain ⟨f, hf, hb⟩ := hin Definition.name FileSignals.definitions hb
    exact ⟨f, hf, by simp [FileSignals.facts, hb]⟩
  · obtain ⟨f, hf, hb⟩ := hin Emission.signalName FileSignals.emissions hb
    exact ⟨f, hf, by simp [FileSignals.facts, hb]⟩
  · obtain ⟨f, hf, hb⟩ := hin Connection.signalName FileSignals.connections hb
    exact ⟨f, hf, by simp [FileSignals.facts, hb]⟩

/-- A fact of a forest has the path of a script and the line of a node in it. -/
theorem exists_node_of_mem_facts {now : UInt64} {x : Fact} (h : x ∈ (ofForest now forest).facts) :
    ∃ e ∈ forest, e.1 = x.filePath ∧
      ∃ n ∈ e.2.root.preorder, x.line.toNat = n.tag.row.toNat + 1 := by
  obtain ⟨f, hf, hx⟩ := exists_file_of_mem_facts h
  obtain ⟨e, he, rfl⟩ := List.mem_map.1 hf
  exact ⟨e, he, ((e.2.isOf_extract e.1).facts x hx).symm, Script.exists_node_of_mem_extract hx⟩

/-! ### Building again -/

/-- Two graphs have the same buckets. -/
structure SameBuckets (g h : Graph) : Prop where
  definitions : g.definitions = h.definitions
  emissions : g.emissions = h.emissions
  connections : g.connections = h.connections

namespace SameBuckets

variable {g h k : Graph}

theorem trans (hgh : SameBuckets g h) (hhk : SameBuckets h k) : SameBuckets g k :=
  ⟨hgh.definitions.trans hhk.definitions, hgh.emissions.trans hhk.emissions,
    hgh.connections.trans hhk.connections⟩

theorem facts_eq (hgh : SameBuckets g h) : g.facts = h.facts := by
  unfold facts
  rw [hgh.definitions, hgh.emissions, hgh.connections]

theorem inSourceOrder (hgh : SameBuckets g h) (hh : h.InSourceOrder) : g.InSourceOrder := by
  refine ⟨fun name => ?_, fun name => ?_, fun name => ?_⟩
  · rw [definitionsOf, hgh.definitions]
    exact hh.definitions name
  · rw [emissionsOf, hgh.emissions]
    exact hh.emissions name
  · rw [connectionsOf, hgh.connections]
    exact hh.connections name

end SameBuckets

/-- A graph taken apart by file and built again, once for each of some times of building. -/
def rebuilt (g : Graph) (times : List UInt64) : Graph :=
  times.foldl (fun g now => ofFiles now g.factsByFile.values) g

end Graph

namespace Keyed

open SignalAtlas.Graph

variable {t : SortedMap String FileSignals}

/-- Taking a graph apart and building it again changes no bucket. -/
theorem sameBuckets_regroup (h : Keyed t) (now now' : UInt64) :
    SameBuckets (ofFiles now' (ofFiles now t.values).factsByFile.values)
      (ofFiles now t.values) := by
  obtain ⟨hd, he, hc⟩ :=
    (keyed_factsByFile (ofFiles now t.values)).buckets_eq h now' now (h.shareOf_ofFiles now)
  exact ⟨hd, he, hc⟩

/-- Nor does doing this several times. -/
theorem sameBuckets_rebuilt (h : Keyed t) (now : UInt64) (times : List UInt64) :
    SameBuckets ((ofFiles now t.values).rebuilt times) (ofFiles now t.values) := by
  induction times generalizing t now with
  | nil => exact ⟨rfl, rfl, rfl⟩
  | cons now' times ih =>
    exact (ih (keyed_factsByFile (ofFiles now t.values)) now').trans
      (h.sameBuckets_regroup now now')

end Keyed

namespace Graph

variable {forest : List (String × Script)}

theorem sameBuckets_rebuilt_ofForest (now : UInt64) (hpaths : (forest.map Prod.fst).Nodup)
    (times : List UInt64) :
    ((ofForest now forest).rebuilt times).SameBuckets (ofForest now forest) := by
  have hn : ((forest.map fun e => e.2.extract e.1).map FileSignals.filePath).Nodup := by
    rwa [map_filePath_extract]
  have hkeyed := FileSignals.keyed_table hn (facts_of_mem_extracts forest)
  have hsame := hkeyed.sameBuckets_rebuilt now times
  rwa [FileSignals.ofFiles_table now hn] at hsame

/-- Take scripts with distinct paths whose nodes start at rows that never decrease in preorder.
Every bucket of their graph is sorted by path and line, a line being one more than the row of a node
of the script at that path. All of this stays so, and the buckets stay the same, however often the
graph is taken apart by file and built again. -/
theorem buckets_are_in_source_order (now : UInt64) (hpaths : (forest.map Prod.fst).Nodup)
    (hrows : ∀ e ∈ forest, e.2.RowsIncrease) (times : List UInt64) :
    let g := (ofForest now forest).rebuilt times
    g.InSourceOrder ∧
      (∀ x ∈ g.facts,
        ∃ e ∈ forest, e.1 = x.filePath ∧
          ∃ n ∈ e.2.root.preorder, x.line.toNat = n.tag.row.toNat + 1) ∧
      g.SameBuckets (ofForest now forest) := by
  intro g
  have hsame := sameBuckets_rebuilt_ofForest now hpaths times
  refine ⟨hsame.inSourceOrder (inSourceOrder_ofForest now hpaths hrows), fun x hx => ?_, hsame⟩
  rw [hsame.facts_eq] at hx
  exact exists_node_of_mem_facts hx

/-- Two scripts out of order, with two emissions of a signal each. -/
theorem buckets_are_in_source_order_of_two_scripts :
    let tag : String → Nat → Nat → UInt32 → Tag := fun kind start stop row =>
      ⟨kind, true, false, false, false, none, start, stop, row⟩
    let emits : Nat → UInt32 → Node := fun start row =>
      .node (tag "attribute" start (start + 8) row)
        [.node (tag "identifier" start (start + 1) row) [],
          .node (tag "attribute_call" (start + 2) (start + 8) row)
            [.node (tag "identifier" (start + 2) (start + 6) row) []]]
    let script : Script :=
      ⟨"b.emit()\nb.emit()", .node (tag "source" 0 17 0) [emits 0 0, emits 9 1]⟩
    let forest := [("c.gd", script), ("a.gd", script)]
    let g := (ofForest 1 forest).rebuilt [2, 3]
    (forest.map Prod.fst).Nodup ∧ (∀ e ∈ forest, e.2.RowsIncrease) ∧ g.InSourceOrder ∧
      g.emissionsOf "b" =
        [⟨"b", "a.gd", 1, "self", []⟩, ⟨"b", "a.gd", 2, "self", []⟩, ⟨"b", "c.gd", 1, "self", []⟩,
          ⟨"b", "c.gd", 2, "self", []⟩] := by
  intro tag emits script forest g
  have hpaths : (forest.map Prod.fst).Nodup := by decide
  have hrows : ∀ e ∈ forest, e.2.RowsIncrease := by
    have hscript : script.RowsIncrease := by
      unfold Script.RowsIncrease
      decide
    simp [forest, hscript]
  obtain ⟨hsorted, -, hsame⟩ := buckets_are_in_source_order 1 hpaths hrows [2, 3]
  refine ⟨hpaths, hrows, hsorted, ?_⟩
  have hfirst : (script.extract "a.gd").emissions =
      [⟨"b", "a.gd", 1, "self", []⟩, ⟨"b", "a.gd", 2, "self", []⟩] := by
    rw [Script.extract, Script.walk_eq]
    decide
  have hsecond : (script.extract "c.gd").emissions =
      [⟨"b", "c.gd", 1, "self", []⟩, ⟨"b", "c.gd", 2, "self", []⟩] := by
    rw [Script.extract, Script.walk_eq]
    decide
  have hby : byPath (forest.map fun e => e.2.extract e.1) =
      [script.extract "a.gd", script.extract "c.gd"] :=
    (mergeSort_eq_of_perm FileSignals.filePath
      (.swap (script.extract "a.gd") (script.extract "c.gd") []) hpaths).trans
      (List.mergeSort_of_pairwise (by decide))
  rw [emissionsOf, hsame.emissions]
  refine (emissionsOf_ofFiles 1 _ "b").trans ?_
  rw [hby, List.flatMap_cons, List.flatMap_cons, hfirst, hsecond]
  decide

end Graph

end SignalAtlas
