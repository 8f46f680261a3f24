import Mathlib.Tactic
import SignalAtlas.Proofs.Bindings
import SignalAtlas.Signal.Extract
import SignalAtlas.Graph.Basic

/-!
# Buckets of a graph

A graph is known by its buckets, and each bucket by what the files contribute to it, one after the
other (`FileSignals.share`). So two lists of files whose members contribute the same give the same
graph up to its time of building (`SameFacts`, `ofFiles_sameFacts`), whatever the order of facts of
different signals inside a file.

Regrouping the facts of a graph by file gives back what each file contributed
(`Keyed.shareOf_ofFiles`). Only files without facts are lost.
-/

namespace SignalAtlas

namespace Graph

/-! ### Filing facts -/

section Filing

variable {β : Type} (name : β → String)

/-- Append facts to the buckets of their names in turn. -/
def fileAll (m : SortedMap String (List β)) (l : List β) : SortedMap String (List β) :=
  l.foldl (fun m x => file m (name x) x) m

/-- The facts of a name, in order. -/
def named (k : String) (l : List β) : List β := l.filter fun x => name x = k

theorem get?_file (m : SortedMap String (List β)) (n : String) (x : β) (k : String) :
    (file m n x).get? k = if k = n then some ((m.get? n).getD [] ++ [x]) else m.get? k := by
  rw [file, SortedMap.upsert, SortedMap.get?_insert]
  simp only [Std.LawfulEqOrd.compare_eq_iff_eq]

theorem get?_fileAll (m : SortedMap String (List β)) (l : List β) (k : String) :
    (fileAll name m l).get? k =
      if named name k l = [] then m.get? k else some ((m.get? k).getD [] ++ named name k l) := by
  induction l generalizing m with
  | nil => rfl
  | cons x l ih =>
    show (fileAll name (file m (name x) x) l).get? k = _
    rw [ih, get?_file]
    unfold named
    by_cases hk : name x = k
    · rw [List.filter_cons_of_pos (by simpa using hk), if_pos hk.symm, hk]
      by_cases hl : l.filter (fun x => name x = k) = []
      · simp [hl]
      · simp [hl]
    · have hne : ¬k = name x := fun h => hk h.symm
      rw [List.filter_cons_of_neg (by simpa using hk)]
      simp only [hne, if_false]

/-- The buckets of some facts. -/
def buckets (l : List β) : SortedMap String (List β) := fileAll name .empty l

theorem get?_buckets (l : List β) (k : String) :
    (buckets name l).get? k = if named name k l = [] then none else some (named name k l) := by
  rw [buckets, get?_fileAll, SortedMap.get?_empty]
  rfl

/-- Facts with the same sublists of each name have the same buckets. -/
theorem buckets_congr {l m : List β} (h : ∀ k, named name k l = named name k m) :
    buckets name l = buckets name m := by
  apply SortedMap.ext_get?
  intro k
  rw [get?_buckets, get?_buckets, h]

/-- A name's facts among all buckets are its own bucket. -/
theorem named_flatten_values (l : List β) (k : String) :
    named name k (buckets name l).values.flatten = named name k l := by
  have hin : ∀ k' b, (buckets name l).get? k' = some b → b = named name k' l := by
    intro k' b h
    rw [get?_buckets] at h
    split at h
    · cases h
    · exact (Option.some.inj h).symm
  have key : ∀ es : List (String × List β), (es.map Prod.fst).Nodup →
      (∀ e ∈ es, e.2 = named name e.1 l) →
      named name k (es.map Prod.snd).flatten =
        if k ∈ es.map Prod.fst then named name k l else [] := by
    intro es hn hes
    induction es with
    | nil => rfl
    | cons e es ih =>
      obtain ⟨hfresh, hn⟩ := List.nodup_cons.1 hn
      have he := hes e (by simp)
      have ih := ih hn fun e' he' => hes e' (List.mem_cons_of_mem _ he')
      unfold named at ih he ⊢
      rw [List.map_cons, List.flatten_cons, List.filter_append, ih, he, List.filter_filter,
        List.map_cons]
      by_cases hk : k = e.1
      · subst hk
        rw [if_neg hfresh, if_pos (by simp)]
        simp
      · have hnone : l.filter (fun x => decide (name x = k) && decide (name x = e.1)) = [] := by
          rw [List.filter_eq_nil_iff]
          intro x _ hx
          simp only [Bool.and_eq_true, decide_eq_true_eq] at hx
          exact hk (hx.1.symm.trans hx.2)
        rw [hnone, List.nil_append]
        simp only [List.mem_cons, hk, false_or]
  unfold SortedMap.values
  rw [key _ (SortedMap.nodup_keys _) fun e he => hin e.1 e.2 (SortedMap.get?_eq_some_iff.2 he)]
  split
  · rfl
  · next h =>
    -- a name without a bucket has no facts
    symm
    by_contra hne
    apply h
    refine SortedMap.mem_keys.2 ⟨named name k l, ?_⟩
    rw [get?_buckets, if_neg hne]

end Filing

/-! ### Graphs of files -/

theorem addAll_eq (g : Graph) (facts : List Fact) :
    g.addAll facts =
      { g with
        definitions := fileAll Definition.name g.definitions (facts.filterMap Fact.definition?)
        emissions := fileAll Emission.signalName g.emissions (facts.filterMap Fact.emission?)
        connections :=
          fileAll Connection.signalName g.connections (facts.filterMap Fact.connection?) } := by
  induction facts generalizing g with
  | nil => rfl
  | cons fact facts ih =>
    show (g.add fact).addAll facts = _
    rw [ih]
    cases fact <;> rfl

end Graph

namespace FileSignals

/-- What a file contributes to the buckets of a name. -/
def share (f : FileSignals) (k : String) : List Definition × List Emission × List Connection :=
  (Graph.named Definition.name k f.definitions, Graph.named Emission.signalName k f.emissions,
    Graph.named Connection.signalName k f.connections)

theorem definition?_facts (f : FileSignals) :
    f.facts.filterMap Fact.definition? = f.definitions := by
  unfold facts
  simp [List.filterMap_append, List.filterMap_map, Function.comp_def, Fact.definition?]

theorem emission?_facts (f : FileSignals) : f.facts.filterMap Fact.emission? = f.emissions := by
  unfold facts
  simp [List.filterMap_append, List.filterMap_map, Function.comp_def, Fact.emission?]

theorem connection?_facts (f : FileSignals) :
    f.facts.filterMap Fact.connection? = f.connections := by
  unfold facts
  simp [List.filterMap_append, List.filterMap_map, Function.comp_def, Fact.connection?]

end FileSignals

namespace Graph

/-- Files by their path. -/
def byPath (files : List FileSignals) : List FileSignals :=
  files.mergeSort fun a b => a.filePath ≤ b.filePath

theorem ofFiles_eq (now : UInt64) (files : List FileSignals) :
    ofFiles now files =
      refresh ⟨buckets Definition.name ((byPath files).flatMap FileSignals.definitions),
        buckets Emission.signalName ((byPath files).flatMap FileSignals.emissions),
        buckets Connection.signalName ((byPath files).flatMap FileSignals.connections),
        .initial⟩ now files.length := by
  show (empty.addAll ((byPath files).flatMap FileSignals.facts)).refresh now files.length = _
  rw [addAll_eq, List.filterMap_flatMap, List.filterMap_flatMap, List.filterMap_flatMap]
  simp only [FileSignals.definition?_facts, FileSignals.emission?_facts,
    FileSignals.connection?_facts]
  rfl

/-- Two graphs hold the same facts in the same order, and the same counts; they may differ in the
time of building only. -/
structure SameFacts (g h : Graph) : Prop where
  definitions : g.definitions = h.definitions
  emissions : g.emissions = h.emissions
  connections : g.connections = h.connections
  fileCount : g.metadata.fileCount = h.metadata.fileCount
  signalCount : g.metadata.signalCount = h.metadata.signalCount
  emissionCount : g.metadata.emissionCount = h.metadata.emissionCount
  connectionCount : g.metadata.connectionCount = h.metadata.connectionCount

theorem sameFacts_refresh (g : Graph) (now now' : UInt64) (n : Nat) :
    SameFacts (g.refresh now n) (g.refresh now' n) :=
  ⟨rfl, rfl, rfl, rfl, rfl, rfl, rfl⟩

theorem named_flatMap {β : Type} (name : β → String) (facts : FileSignals → List β)
    (files : List FileSignals) (k : String) :
    named name k (files.flatMap facts) = files.flatMap fun f => named name k (facts f) :=
  List.filter_flatMap

/-- Buckets of one sort depend only on that part of what the files contribute. -/
theorem buckets_files_congr {β : Type} (name : β → String) (facts : FileSignals → List β)
    (part : List Definition × List Emission × List Connection → List β)
    (hpart : ∀ f k, named name k (facts f) = part (f.share k)) {fs gs : List FileSignals}
    (h : fs.map FileSignals.share = gs.map FileSignals.share) :
    buckets name (fs.flatMap facts) = buckets name (gs.flatMap facts) := by
  apply buckets_congr
  intro k
  have hk := congrArg (List.flatMap fun share => part (share k)) h
  rw [List.flatMap_map, List.flatMap_map] at hk
  rw [named_flatMap, named_flatMap]
  simp only [hpart]
  exact hk

/-- Files that contribute the same, one by one, give the same graph. -/
theorem ofFiles_sameFacts {fs gs : List FileSignals} (now now' : UInt64)
    (h : (byPath fs).map FileSignals.share = (byPath gs).map FileSignals.share) :
    SameFacts (ofFiles now fs) (ofFiles now' gs) := by
  have hlen : fs.length = gs.length := by
    have := congrArg List.length h
    simpa [byPath] using this
  have hd := buckets_files_congr Definition.name FileSignals.definitions (·.1) (fun _ _ => rfl) h
  have he := buckets_files_congr Emission.signalName FileSignals.emissions (·.2.1)
    (fun _ _ => rfl) h
  have hc := buckets_files_congr Connection.signalName FileSignals.connections (·.2.2)
    (fun _ _ => rfl) h
  rw [ofFiles_eq, ofFiles_eq, hd, he, hc, hlen]
  exact sameFacts_refresh _ now now' _

end Graph

/-! ### Tables -/

namespace SortedMap

variable {α β γ : Type} [Ord α]

/-- The map with each value replaced by its image. -/
def map (f : β → γ) (m : SortedMap α β) : SortedMap α γ :=
  ⟨m.entries.map fun e => (e.1, f e.2), by rw [List.pairwise_map]; exact m.sorted⟩

theorem get?_map (f : β → γ) (m : SortedMap α β) (k : α) :
    (m.map f).get? k = (m.get? k).map f := by
  unfold map get?
  simp only
  induction m.entries with
  | nil => rfl
  | cons e l ih =>
    obtain ⟨a, b⟩ := e
    rw [List.map_cons, find?, find?, ih]
    split <;> rfl

theorem values_map (f : β → γ) (m : SortedMap α β) : (m.map f).values = m.values.map f := by
  simp [map, values]

end SortedMap

/-- A file whose facts all name it as their origin, under a path. -/
structure FileSignals.IsOf (f : FileSignals) (path : String) : Prop where
  filePath : f.filePath = path
  facts : ∀ fact ∈ f.facts, fact.filePath = path

/-- A table in which each file stands under its own path. -/
def Keyed (t : SortedMap String FileSignals) : Prop := ∀ k f, t.get? k = some f → f.IsOf k

namespace Keyed

variable {t t' : SortedMap String FileSignals}

theorem byPath_values (h : Keyed t) : Graph.byPath t.values = t.values := by
  unfold Graph.byPath
  apply List.mergeSort_of_pairwise
  refine List.pairwise_map.2 (t.sorted.imp_of_mem ?_)
  intro a b ha hb hab
  have hpa := (h a.1 a.2 (SortedMap.get?_eq_some_iff.2 ha)).filePath
  have hpb := (h b.1 b.2 (SortedMap.get?_eq_some_iff.2 hb)).filePath
  rw [decide_eq_true_eq, hpa, hpb]
  exact Std.le_of_lt (compare_text_eq_lt.1 hab)

/-- Tables whose files contribute the same give the same graph. -/
theorem sameFacts (h : Keyed t) (h' : Keyed t') (now now' : UInt64)
    (hshare : ∀ k, (t.get? k).map FileSignals.share = (t'.get? k).map FileSignals.share) :
    Graph.SameFacts (.ofFiles now t.values) (.ofFiles now' t'.values) := by
  apply Graph.ofFiles_sameFacts
  rw [h.byPath_values, h'.byPath_values, ← SortedMap.values_map, ← SortedMap.values_map]
  congr 1
  apply SortedMap.ext_get?
  intro k
  rw [SortedMap.get?_map, SortedMap.get?_map, hshare]

end Keyed

theorem Graph.fileCount_pos {t : SortedMap String FileSignals} {k : String} {f : FileSignals}
    (h : t.get? k = some f) (now : UInt64) :
    0 < (Graph.ofFiles now t.values).metadata.fileCount := by
  show 0 < t.values.length
  rw [SortedMap.values, List.length_map]
  exact List.length_pos_of_mem (SortedMap.get?_eq_some_iff.1 h)

/-! ### Facts by file -/

namespace Graph

/-- The facts of a file among others. -/
def ofPath (k : String) (facts : List Fact) : List Fact := facts.filter fun x => x.filePath = k

theorem foldl_push (f : FileSignals) (l : List Fact) :
    l.foldl FileSignals.push f =
      ⟨f.filePath, f.definitions ++ l.filterMap Fact.definition?,
        f.emissions ++ l.filterMap Fact.emission?,
        f.connections ++ l.filterMap Fact.connection?⟩ := by
  induction l generalizing f with
  | nil => simp
  | cons x l ih =>
    rw [List.foldl_cons, ih]
    cases x <;>
      simp [FileSignals.push, List.filterMap_cons, Fact.definition?, Fact.emission?,
        Fact.connection?]

theorem get?_foldl_regroup (m : SortedMap String FileSignals) (facts : List Fact) (k : String) :
    (facts.foldl regroup m).get? k =
      if ofPath k facts = [] then m.get? k
      else some ((ofPath k facts).foldl FileSignals.push ((m.get? k).getD (.empty k))) := by
  induction facts generalizing m with
  | nil => rfl
  | cons x facts ih =>
    rw [List.foldl_cons, ih, regroup, SortedMap.upsert, SortedMap.get?_insert]
    simp only [Std.LawfulEqOrd.compare_eq_iff_eq]
    unfold ofPath
    by_cases hk : x.filePath = k
    · rw [List.filter_cons_of_pos (by simpa using hk)]
      subst hk
      by_cases hl : facts.filter (fun y => y.filePath = x.filePath) = []
      · simp [hl]
      · simp [hl]
    · have hne : ¬k = x.filePath := fun h => hk h.symm
      rw [List.filter_cons_of_neg (by simpa using hk)]
      simp only [hne, if_false]

theorem get?_factsByFile (g : Graph) (k : String) :
    g.factsByFile.get? k =
      if ofPath k g.facts = [] then none else some (.ofFacts k (ofPath k g.facts)) := by
  rw [factsByFile, get?_foldl_regroup, SortedMap.get?_empty, foldl_push]
  rfl

theorem getD_factsByFile (g : Graph) (k : String) :
    (g.factsByFile.get? k).getD (.empty k) = .ofFacts k (ofPath k g.facts) := by
  rw [get?_factsByFile]
  split
  · next h => rw [h]; rfl
  · rfl

/-- The facts of a file in a graph, sort by sort. -/
theorem ofFacts_ofPath (g : Graph) (k : String) :
    FileSignals.ofFacts k (ofPath k g.facts) =
      ⟨k, g.definitions.values.flatten.filter fun x => x.filePath = k,
        g.emissions.values.flatten.filter fun x => x.filePath = k,
        g.connections.values.flatten.filter fun x => x.filePath = k⟩ := by
  unfold FileSignals.ofFacts ofPath facts
  simp only [List.filter_append, List.filterMap_append, List.filter_map, List.filterMap_map,
    Function.comp_def, Fact.definition?, Fact.emission?, Fact.connection?, List.filterMap_some,
    List.filterMap_none, List.append_nil, List.nil_append]
  rfl

end Graph

/-- What a graph says of a file, by the names of the signals. -/
def Graph.shareOf (g : Graph) (k : String) :
    String → List Definition × List Emission × List Connection :=
  ((g.factsByFile.get? k).getD (.empty k)).share

theorem Graph.SameFacts.shareOf_eq {g h : Graph} (hgh : g.SameFacts h) (k : String) :
    g.shareOf k = h.shareOf k := by
  have hfacts : g.factsByFile = h.factsByFile := by
    unfold Graph.factsByFile Graph.facts
    rw [hgh.definitions, hgh.emissions, hgh.connections]
  unfold Graph.shareOf
  rw [hfacts]

theorem FileSignals.isOf_ofFacts {k : String} {l : List Fact} (h : ∀ x ∈ l, x.filePath = k) :
    (FileSignals.ofFacts k l).IsOf k := by
  refine ⟨rfl, fun x hx => h x ?_⟩
  unfold FileSignals.facts FileSignals.ofFacts at hx
  simp only [List.mem_append, List.mem_map, List.mem_filterMap] at hx
  rcases hx with (⟨y, ⟨z, hz, hy⟩, rfl⟩ | ⟨y, ⟨z, hz, hy⟩, rfl⟩) | ⟨y, ⟨z, hz, hy⟩, rfl⟩ <;>
    cases z <;> cases hy <;> exact hz

theorem Graph.keyed_factsByFile (g : Graph) : Keyed g.factsByFile := by
  intro k f h
  rw [Graph.get?_factsByFile] at h
  split at h
  · cases h
  · cases h
    refine FileSignals.isOf_ofFacts fun x hx => ?_
    simpa using (List.mem_filter.1 hx).2

namespace Keyed

variable {t : SortedMap String FileSignals}

/-- Among the facts of a table, those that name a file are the facts of that file. -/
theorem filter_flatMap_values {β : Type} (facts : FileSignals → List β) (path : β → String)
    (hpath : ∀ k f, t.get? k = some f → ∀ x ∈ facts f, path x = k) (k : String) :
    (t.values.flatMap facts).filter (fun x => path x = k) = ((t.get? k).map facts).getD [] := by
  have key : ∀ es : List (String × FileSignals), (es.map Prod.fst).Nodup →
      (∀ e ∈ es, ∀ x ∈ facts e.2, path x = e.1) →
      ((es.map Prod.snd).flatMap facts).filter (fun x => path x = k) =
        ((es.lookup k).map facts).getD [] := by
    intro es hn hes
    induction es with
    | nil => rfl
    | cons e es ih =>
      obtain ⟨a, b⟩ := e
      obtain ⟨hfresh, hn⟩ := List.nodup_cons.1 hn
      have hb := hes (a, b) (by simp)
      have ih := ih hn fun e' he' => hes e' (List.mem_cons_of_mem _ he')
      rw [List.map_cons, List.flatMap_cons, List.filter_append, ih, lookup_cons_if]
      by_cases hka : k = a
      · subst hka
        have hnone : es.lookup k = none := by
          rw [List.lookup_eq_none_iff]
          intro e he
          rw [bne_iff_ne]
          rintro rfl
          exact hfresh (List.mem_map.2 ⟨e, he, rfl⟩)
        rw [hnone, if_pos rfl, List.filter_eq_self.2 fun x hx => by simpa using hb x hx]
        simp
      · rw [if_neg hka, List.filter_eq_nil_iff.2, List.nil_append]
        intro x hx hxk
        rw [decide_eq_true_eq] at hxk
        exact hka (hxk.symm.trans (hb x hx))
  unfold SortedMap.values
  rw [key _ t.nodup_keys fun e he => hpath e.1 e.2 (SortedMap.get?_eq_some_iff.2 he),
    SortedMap.lookup_eq_find?]
  rfl

/-- The facts that a graph holds of a sort and a file are those of the file. -/
theorem named_filter_buckets {β : Type} (name path : β → String) (facts : FileSignals → List β)
    (hpath : ∀ k f, t.get? k = some f → ∀ x ∈ facts f, path x = k) (k n : String) :
    Graph.named name n ((Graph.buckets name (t.values.flatMap facts)).values.flatten.filter
      fun x => path x = k) = Graph.named name n (((t.get? k).map facts).getD []) := by
  have hcomm : ∀ l : List β, Graph.named name n (l.filter fun x => path x = k) =
      (Graph.named name n l).filter fun x => path x = k := by
    intro l
    unfold Graph.named
    rw [List.filter_filter, List.filter_filter]
    simp only [Bool.and_comm]
  rw [hcomm, Graph.named_flatten_values, ← hcomm, filter_flatMap_values facts path hpath k]

/-- Regrouping the facts of a graph gives back what each file contributed. -/
theorem shareOf_ofFiles (h : Keyed t) (now : UInt64) (k : String) :
    (Graph.ofFiles now t.values).shareOf k = ((t.get? k).getD (.empty k)).share := by
  have hd := named_filter_buckets Definition.name Definition.filePath FileSignals.definitions
    (fun k f hf x hx => (h k f hf).facts (.definition x) (by simp [FileSignals.facts, hx])) k
  have he := named_filter_buckets Emission.signalName Emission.filePath FileSignals.emissions
    (fun k f hf x hx => (h k f hf).facts (.emission x) (by simp [FileSignals.facts, hx])) k
  have hc := named_filter_buckets Connection.signalName Connection.filePath
    FileSignals.connections
    (fun k f hf x hx => (h k f hf).facts (.connection x) (by simp [FileSignals.facts, hx])) k
  unfold Graph.shareOf
  rw [Graph.getD_factsByFile, Graph.ofFacts_ofPath, Graph.ofFiles_eq, h.byPath_values]
  funext n
  have hd := hd n
  have he := he n
  have hc := hc n
  cases hk : t.get? k with
  | none =>
    rw [hk] at hd he hc
    exact Prod.ext hd (Prod.ext he hc)
  | some f =>
    rw [hk] at hd he hc
    exact Prod.ext hd (Prod.ext he hc)

end Keyed

/-! ### Facts of a script -/

namespace Extract

variable {s : Script} {file : String}

/-- What a call gives, if it gives anything: an emission or a connection, in its file and at the
line of its site. -/
theorem callFact?_cases {c : Call} {x : Fact} (h : callFact? s file c = some x) :
    (∃ e, x = .emission e ∧ e.filePath = file ∧ e.line = c.site.line) ∨
      ∃ k, x = .connection k ∧ k.filePath = file ∧ k.line = c.site.line := by
  have hname : connectByName? s file c = some x →
      ∃ k, x = .connection k ∧ k.filePath = file ∧ k.line = c.site.line := by
    intro hx
    unfold connectByName? at hx
    split at hx
    · cases hx; exact ⟨_, rfl, rfl, rfl⟩
    · cases hx
  unfold callFact? at h
  split at h
  · obtain ⟨parts, -, hx⟩ := Option.bind_eq_some_iff.1 h
    obtain ⟨p, -, rfl⟩ := Option.map_eq_some_iff.1 hx
    exact .inl ⟨_, rfl, rfl, rfl⟩
  · split at h
    · obtain ⟨name, -, rfl⟩ := Option.map_eq_some_iff.1 h
      exact .inl ⟨_, rfl, rfl, rfl⟩
    · split at h
      · split at h
        · split at h
          · exact .inr (hname h)
          · unfold connect? at h
            split at h
            · cases h; exact .inr ⟨_, rfl, rfl, rfl⟩
            · cases h
        · exact .inr (hname h)
      · cases h

theorem filePath_of_callFact? {c : Call} {x : Fact} (h : callFact? s file c = some x) :
    x.filePath = file := by
  rcases callFact?_cases h with ⟨e, rfl, hfile, -⟩ | ⟨k, rfl, hfile, -⟩
  · exact hfile
  · exact hfile

/-- Every fact names the file that it was extracted for. -/
theorem filePath_of_mem_factsAt {n : Node} {x : Fact} (h : x ∈ factsAt s file n) :
    x.filePath = file := by
  unfold factsAt at h
  split at h
  · rw [Option.mem_toList] at h
    obtain ⟨d, hd, rfl⟩ := Option.map_eq_some_iff.1 h
    unfold definition? at hd
    obtain ⟨name, -, rfl⟩ := Option.map_eq_some_iff.1 hd
    rfl
  · split at h
    · rw [Option.mem_toList] at h
      obtain ⟨c, -, hx⟩ := Option.bind_eq_some_iff.1 h
      exact filePath_of_callFact? hx
    · split at h
      · obtain ⟨c, -, hx⟩ := List.mem_filterMap.1 h
        exact filePath_of_callFact? hx
      · cases h

end Extract

theorem Script.isOf_extract (s : Script) (file : String) : (s.extract file).IsOf file := by
  refine FileSignals.isOf_ofFacts fun x hx => ?_
  obtain ⟨n, -, hn⟩ := List.mem_flatMap.1 hx
  exact Extract.filePath_of_mem_factsAt hn

end SignalAtlas
