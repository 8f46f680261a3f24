import Mathlib.Tactic
import Mathlib.Data.Set.Card
import SignalAtlas.Proofs.Building
import SignalAtlas.Proofs.Confidences

/-!
# Signals that are not used

A graph is built fact by fact. `Graph.unused?` reports on the names of the graph: on each of them
once if it lacks emissions or connections, with the pattern that says which of them (`Lacks`), and
with counts that fit (`Classifies`). Names without a declaration are looked at only on demand, and
then the reports on the other names stay what they are, in their order.

The search can fail. A confidence that is no number is neither less than another one nor greater,
so it stands in order by its name alone, and the comparisons of more than twenty reports may then
contradict each other. Where all confidences are numbers, or the reports are no more than twenty,
there is a result.
-/

namespace SignalAtlas

namespace Unused

/-! ### What is known of a name -/

/-- Some fact declares a name. -/
def Declared (facts : List Fact) (name : String) : Prop :=
  ∃ d ∈ facts.filterMap Fact.definition?, d.name = name

/-- Some fact emits a signal. -/
def Emitted (facts : List Fact) (name : String) : Prop :=
  ∃ e ∈ facts.filterMap Fact.emission?, e.signalName = name

/-- Some fact connects to a signal. -/
def Connected (facts : List Fact) (name : String) : Prop :=
  ∃ c ∈ facts.filterMap Fact.connection?, c.signalName = name

/-- A name is looked at: it is declared, or there is any fact about it and that is enough. -/
def Analyzed (facts : List Fact) (includeUndeclared : Bool) (name : String) : Prop :=
  Declared facts name ∨ includeUndeclared = true ∧ (Emitted facts name ∨ Connected facts name)

/-- The pattern of a signal by what it lacks. -/
inductive Lacks (emitted connected : Prop) : Pattern → Prop
  | isolated (hemitted : ¬emitted) (hconnected : ¬connected) : Lacks emitted connected .isolated
  | orphan (hemitted : ¬emitted) (hconnected : connected) : Lacks emitted connected .orphan
  | deadEmitter (hemitted : emitted) (hconnected : ¬connected) :
    Lacks emitted connected .deadEmitter

theorem exists_lacks_iff {emitted connected : Prop} :
    (∃ pattern, Lacks emitted connected pattern) ↔ ¬(emitted ∧ connected) := by
  constructor
  · rintro ⟨pattern, h⟩
    cases h <;> tauto
  · intro h
    by_cases he : emitted
    · exact ⟨_, .deadEmitter he fun hc => h ⟨he, hc⟩⟩
    · by_cases hc : connected
      · exact ⟨_, .orphan he hc⟩
      · exact ⟨_, .isolated he hc⟩

theorem Lacks.unique {emitted connected : Prop} {a b : Pattern} (ha : Lacks emitted connected a)
    (hb : Lacks emitted connected b) : a = b := by
  cases ha <;> cases hb <;> trivial

/-! ### One report -/

variable {p : Policy} {g : Graph} {name : String} {r : UnusedReport}

/-- A signal has both emissions and connections, or a pattern by what it lacks. -/
theorem classify?_cases (p : Policy) (emissions connections : Nat) :
    (classify? p emissions connections = none ∧ emissions ≠ 0 ∧ connections ≠ 0) ∨
      ∃ pattern base reason, classify? p emissions connections = some (pattern, base, reason) ∧
        Lacks (emissions ≠ 0) (connections ≠ 0) pattern := by
  cases emissions with
  | zero =>
    cases connections with
    | zero => exact .inr ⟨_, _, _, rfl, .isolated (by simp) (by simp)⟩
    | succ n => exact .inr ⟨_, _, _, rfl, .orphan (by simp) (by simp)⟩
  | succ m =>
    cases connections with
    | zero => exact .inr ⟨_, _, _, rfl, .deadEmitter (by simp) (by simp)⟩
    | succ n => exact .inl ⟨rfl, by simp, by simp⟩

/-- A name of which nothing is missing is not reported; any other one is, by what it lacks. -/
theorem report?_cases (p : Policy) (g : Graph) (name : String) :
    (report? p g name = none ∧ g.emissionsOf name ≠ [] ∧ g.connectionsOf name ≠ []) ∨
      ∃ r, report? p g name = some r ∧ r.signalName = name ∧
        Lacks (g.emissionsOf name ≠ []) (g.connectionsOf name ≠ []) r.pattern := by
  unfold report?
  rcases classify?_cases p (g.emissionsOf name).length (g.connectionsOf name).length with
    ⟨hnone, hlengths⟩ | ⟨pattern, base, reason, hsome, hlacks⟩
  · rw [hnone]
    simp only [ne_eq, List.length_eq_zero_iff] at hlengths
    exact .inl ⟨rfl, hlengths⟩
  · rw [hsome]
    simp only [ne_eq, List.length_eq_zero_iff] at hlacks
    cases pattern <;> exact .inr ⟨_, rfl, rfl, hlacks⟩

theorem signalName_of_report? (h : report? p g name = some r) : r.signalName = name := by
  rcases report?_cases p g name with ⟨hnone, -⟩ | ⟨r', hr', hname, -⟩
  · rw [hnone] at h; cases h
  · rw [hr'] at h; cases h; exact hname

theorem exists_report?_iff (pattern : Pattern) :
    (∃ r, report? p g name = some r ∧ r.pattern = pattern) ↔
      Lacks (g.emissionsOf name ≠ []) (g.connectionsOf name ≠ []) pattern := by
  rcases report?_cases p g name with ⟨hnone, he, hc⟩ | ⟨r, hr, -, hlacks⟩
  · simp only [hnone, reduceCtorEq, false_and, exists_false, false_iff]
    intro h
    exact exists_lacks_iff.1 ⟨pattern, h⟩ ⟨he, hc⟩
  · simp only [hr, Option.some.injEq, exists_eq_left']
    exact ⟨fun h => h ▸ hlacks, fun h => hlacks.unique h⟩

/-! ### All reports -/

/-- The reports on some names, in the order of the names. -/
def reportsOn (p : Policy) (g : Graph) (names : List String) : List UnusedReport :=
  names.filterMap (report? p g)

theorem map_signalName_reportsOn (p : Policy) (g : Graph) (names : List String) :
    (reportsOn p g names).map UnusedReport.signalName =
      names.filter fun name => (report? p g name).isSome := by
  rw [reportsOn, List.map_filterMap, ← List.filterMap_eq_filter]
  congr 1
  funext name
  cases h : report? p g name with
  | none => simp [Option.guard, h]
  | some r => simp [Option.guard, h, signalName_of_report? h]

theorem nodup_reportsOn (p : Policy) (g : Graph) {names : List String} (h : names.Nodup) :
    ((reportsOn p g names).map UnusedReport.signalName).Nodup := by
  rw [map_signalName_reportsOn]
  exact h.filter _

theorem exists_mem_reportsOn_iff {names : List String} {pattern : Pattern} :
    (∃ r ∈ reportsOn p g names, r.signalName = name ∧ r.pattern = pattern) ↔
      name ∈ names ∧ Lacks (g.emissionsOf name ≠ []) (g.connectionsOf name ≠ []) pattern := by
  rw [← exists_report?_iff (p := p)]
  constructor
  · rintro ⟨r, hr, hname, hpattern⟩
    obtain ⟨name', hmem, hr⟩ := List.mem_filterMap.1 hr
    cases (signalName_of_report? hr).symm.trans hname
    exact ⟨hmem, r, hr, hpattern⟩
  · rintro ⟨hmem, r, hr, hpattern⟩
    exact ⟨r, List.mem_filterMap.2 ⟨name, hmem, hr⟩, signalName_of_report? hr, hpattern⟩

theorem count_eq (l : List UnusedReport) (pattern : Pattern) :
    count l pattern = (l.map UnusedReport.pattern).count pattern := by
  rw [count, List.count_eq_countP, List.countP_map]
  exact List.countP_congr fun r _ => by simp

/-- Each report has one of three patterns. -/
theorem count_add_count (l : List Pattern) :
    l.count .orphan + l.count .deadEmitter + l.count .isolated = l.length := by
  induction l with
  | nil => rfl
  | cons a l ih =>
    simp only [List.count_cons, List.length_cons]
    cases a <;> simp <;> omega

/-- No name that is looked at gets a confidence that is no number. -/
def Numeric (g : Graph) (includeUndeclared : Bool) (p : Policy) : Prop :=
  ∀ r ∈ reportsOn p g (g.candidates includeUndeclared), r.confidence.isNaN = false

instance decidableNumeric (g : Graph) (includeUndeclared : Bool) (p : Policy) :
    Decidable (Numeric g includeUndeclared p) :=
  inferInstanceAs (Decidable (∀ r ∈ reportsOn p g (g.candidates includeUndeclared),
    r.confidence.isNaN = false))

theorem nodup_candidates (g : Graph) (includeUndeclared : Bool) :
    (g.candidates includeUndeclared).Nodup := by
  unfold Graph.candidates
  split
  · exact g.nodup_signalNames
  · exact g.definitions.nodup_keys

theorem unused?_eq_some_iff {includeUndeclared : Bool} {result : UnusedResult} :
    g.unused? includeUndeclared p = some result ↔
      ∃ reports, sort? (reportsOn p g (g.candidates includeUndeclared)) = some reports ∧
        result = ⟨reports, stats (g.candidates includeUndeclared).length reports⟩ := by
  rw [Graph.unused?, Option.map_eq_some_iff]
  simp only [reportsOn, eq_comm]

theorem exists_unused?_of_numeric {includeUndeclared : Bool} (h : Numeric g includeUndeclared p) :
    ∃ result, g.unused? includeUndeclared p = some result ∧
      result.reports.Pairwise Precedes := by
  obtain ⟨reports, hsort, hordered⟩ :=
    exists_sort?_of_numbers h (nodup_reportsOn p g (nodup_candidates g includeUndeclared))
  exact ⟨_, unused?_eq_some_iff.2 ⟨reports, hsort, rfl⟩, hordered⟩

/-- There is only one way to bring reports in strict order. -/
theorem reports_eq_of_precedes {includeUndeclared : Bool} {result : UnusedResult}
    {l : List UnusedReport} (h : Numeric g includeUndeclared p)
    (hresult : g.unused? includeUndeclared p = some result)
    (hperm : l.Perm (reportsOn p g (g.candidates includeUndeclared))) (hl : l.Pairwise Precedes) :
    result.reports = l := by
  obtain ⟨result', hresult', hordered⟩ := exists_unused?_of_numeric h
  cases hresult.symm.trans hresult'
  obtain ⟨reports, hsort, rfl⟩ := unused?_eq_some_iff.1 hresult
  have hperm' := perm_of_sort? hsort
  exact eq_of_perm_of_precedes (fun r hr => h r (hperm'.subset hr)) (hperm'.trans hperm.symm)
    hordered hl

/-! ### Graphs built from facts -/

section Built

variable {facts : List Fact} {includeUndeclared : Bool}

/-- The graph of some facts, by its buckets. -/
theorem addAll_empty (facts : List Fact) :
    Graph.empty.addAll facts =
      ⟨Graph.buckets Definition.name (facts.filterMap Fact.definition?),
        Graph.buckets Emission.signalName (facts.filterMap Fact.emission?),
        Graph.buckets Connection.signalName (facts.filterMap Fact.connection?), .initial⟩ :=
  Graph.addAll_eq Graph.empty facts

theorem getD_buckets_ne_nil_iff {β : Type} (f : β → String) {l : List β} {k : String} :
    (Graph.buckets f l).getD k [] ≠ [] ↔ ∃ x ∈ l, f x = k := by
  rw [Graph.getD_buckets]
  simp [Graph.named, List.filter_eq_nil_iff]

theorem emissionsOf_ne_nil_iff :
    (Graph.empty.addAll facts).emissionsOf name ≠ [] ↔ Emitted facts name := by
  rw [addAll_empty]
  exact getD_buckets_ne_nil_iff Emission.signalName

theorem connectionsOf_ne_nil_iff :
    (Graph.empty.addAll facts).connectionsOf name ≠ [] ↔ Connected facts name := by
  rw [addAll_empty]
  exact getD_buckets_ne_nil_iff Connection.signalName

theorem mem_candidates_iff :
    name ∈ (Graph.empty.addAll facts).candidates includeUndeclared ↔
      Analyzed facts includeUndeclared name := by
  rw [addAll_empty, Graph.candidates, Analyzed, Declared, Emitted, Connected]
  simp only [← List.mem_map]
  cases includeUndeclared with
  | false =>
    simp only [Bool.false_eq_true, if_false, false_and, or_false]
    exact Graph.mem_keys_buckets Definition.name
  | true =>
    simp only [if_true, true_and]
    rw [Graph.mem_signalNames]
    simp only [Graph.mem_keys_buckets]

theorem ncard_setOf_mem {l : List String} (h : l.Nodup) : {a | a ∈ l}.ncard = l.length := by
  rw [← List.coe_toFinset, Set.ncard_coe_finset, List.toFinset_card_of_nodup h]

theorem length_candidates :
    ((Graph.empty.addAll facts).candidates includeUndeclared).length =
      {name | Analyzed facts includeUndeclared name}.ncard := by
  rw [← ncard_setOf_mem (nodup_candidates _ _)]
  simp only [mem_candidates_iff]

/-- There are as many reports as names that lack something. -/
theorem length_reportsOn (p : Policy) :
    let g := Graph.empty.addAll facts
    (reportsOn p g (g.candidates includeUndeclared)).length =
      {name | Analyzed facts includeUndeclared name ∧
        ¬(Emitted facts name ∧ Connected facts name)}.ncard := by
  intro g
  have hnames := nodup_reportsOn p g (nodup_candidates g includeUndeclared)
  rw [← List.length_map UnusedReport.signalName, ← ncard_setOf_mem hnames]
  congr 1
  ext name
  have hmem : (∃ pattern, ∃ r ∈ reportsOn p g (g.candidates includeUndeclared),
      r.signalName = name ∧ r.pattern = pattern) ↔
      name ∈ (reportsOn p g (g.candidates includeUndeclared)).map UnusedReport.signalName := by
    simp
  simp only [Set.mem_ofPred_eq, ← hmem, exists_mem_reportsOn_iff, exists_and_left,
    exists_lacks_iff]
  rw [mem_candidates_iff, emissionsOf_ne_nil_iff, connectionsOf_ne_nil_iff]

/-- What a search for unused signals says of a graph that was built from facts. The names that are
looked at and lack something are reported once each, by what they lack; a name without a declaration
is never isolated. The counts are those of the names and the reports. Reports stand by falling
confidence and then by name, if all confidences are numbers. -/
structure Classifies (facts : List Fact) (includeUndeclared : Bool) (result : UnusedResult) :
    Prop where
  once : (result.reports.map UnusedReport.signalName).Nodup
  lacks : ∀ name pattern,
    (∃ r ∈ result.reports, r.signalName = name ∧ r.pattern = pattern) ↔
      Analyzed facts includeUndeclared name ∧
        Lacks (Emitted facts name) (Connected facts name) pattern
  undeclared : ∀ r ∈ result.reports, ¬Declared facts r.signalName → r.pattern ≠ .isolated
  analyzed : result.stats.signalsAnalyzed = {name | Analyzed facts includeUndeclared name}.ncard
  orphans : result.stats.orphansFound = (result.reports.map UnusedReport.pattern).count .orphan
  deadEmitters :
    result.stats.deadEmittersFound = (result.reports.map UnusedReport.pattern).count .deadEmitter
  isolated :
    result.stats.isolatedFound = (result.reports.map UnusedReport.pattern).count .isolated
  total : result.stats.totalUnused = result.reports.length
  sum : result.stats.orphansFound + result.stats.deadEmittersFound + result.stats.isolatedFound =
    result.stats.totalUnused
  ordered : (∀ r ∈ result.reports, r.confidence.isNaN = false) →
    result.reports.Pairwise Precedes

/-- A result of the search classifies the names of the graph. -/
theorem classifies_of_unused? {result : UnusedResult}
    (h : (Graph.empty.addAll facts).unused? includeUndeclared p = some result) :
    Classifies facts includeUndeclared result := by
  obtain ⟨reports, hsort, rfl⟩ := unused?_eq_some_iff.1 h
  have hperm := perm_of_sort? hsort
  have hnodup := nodup_reportsOn p (Graph.empty.addAll facts)
    (nodup_candidates (Graph.empty.addAll facts) includeUndeclared)
  have hlacks : ∀ name pattern, (∃ r ∈ reports, r.signalName = name ∧ r.pattern = pattern) ↔
      Analyzed facts includeUndeclared name ∧
        Lacks (Emitted facts name) (Connected facts name) pattern := by
    intro name pattern
    simp only [hperm.mem_iff, exists_mem_reportsOn_iff, mem_candidates_iff,
      emissionsOf_ne_nil_iff, connectionsOf_ne_nil_iff]
  refine ⟨(hperm.map _).nodup_iff.2 hnodup, hlacks, ?_, length_candidates, count_eq _ _,
    count_eq _ _, count_eq _ _, rfl, ?_, ?_⟩
  · -- looked at and neither emitted nor connected, a name is declared
    intro r hr hundeclared hisolated
    obtain ⟨hanalyzed, hpattern⟩ := (hlacks r.signalName r.pattern).1 ⟨r, hr, rfl, rfl⟩
    rw [hisolated] at hpattern
    cases hpattern with
    | isolated hemitted hconnected =>
      rcases hanalyzed with h | ⟨-, h | h⟩
      · exact hundeclared h
      · exact hemitted h
      · exact hconnected h
  · simp only [stats, count_eq]
    rw [count_add_count, List.length_map]
  · intro hnumbers
    obtain ⟨m, hm, hordered⟩ := exists_sort?_of_numbers
      (fun r hr => hnumbers r (hperm.symm.subset hr)) hnodup
    rw [hsort] at hm
    cases hm
    exact hordered

/-- **Unused signals are classified exclusively and completely.** Whatever the policy, a result of
the search classifies the names of a graph that was built from facts. There is a result if all
confidences are numbers, and if no more than twenty names lack something. -/
theorem unused_names_are_classified (facts : List Fact) (includeUndeclared : Bool) (p : Policy) :
    (∀ result, (Graph.empty.addAll facts).unused? includeUndeclared p = some result →
        Classifies facts includeUndeclared result) ∧
      (Numeric (Graph.empty.addAll facts) includeUndeclared p ∨
          {name | Analyzed facts includeUndeclared name ∧
            ¬(Emitted facts name ∧ Connected facts name)}.ncard ≤ 20 →
        ∃ result, (Graph.empty.addAll facts).unused? includeUndeclared p = some result) := by
  refine ⟨fun result => classifies_of_unused?, ?_⟩
  rintro (hnumeric | hfew)
  · obtain ⟨result, hresult, -⟩ := exists_unused?_of_numeric hnumeric
    exact ⟨result, hresult⟩
  · rw [← length_reportsOn p] at hfew
    obtain ⟨reports, hsort⟩ := exists_sort?_of_length hfew
    exact ⟨_, unused?_eq_some_iff.2 ⟨reports, hsort, rfl⟩⟩

end Built

/-- A signal for each pattern, one of them without a declaration, and one that is used. -/
theorem unused_names_are_classified_by_three_patterns :
    let facts : List Fact :=
      [.definition ⟨"quiet", [], none, "a.gd", 1, "signal quiet"⟩,
        .definition ⟨"heard", [], none, "a.gd", 2, "signal heard"⟩,
        .definition ⟨"used", [], none, "a.gd", 3, "signal used"⟩,
        .emission ⟨"used", "a.gd", 5, "self", []⟩,
        .emission ⟨"sent", "a.gd", 6, "other", []⟩,
        .connection ⟨"used", "b.gd", 2, none, "f", [], false⟩,
        .connection ⟨"heard", "b.gd", 3, none, "f", [], false⟩]
    Numeric (Graph.empty.addAll facts) true {} ∧
      ∃ result, (Graph.empty.addAll facts).unused? true {} = some result ∧
        Classifies facts true result := by
  intro facts
  have hnumeric : Numeric (Graph.empty.addAll facts) true {} := by decide +kernel
  obtain ⟨hclassifies, hexists⟩ := unused_names_are_classified facts true {}
  obtain ⟨result, hresult⟩ := hexists (.inl hnumeric)
  exact ⟨hnumeric, result, hresult, hclassifies result hresult⟩

/-- Twenty-one signals, all but three isolated, under a policy that gives isolated signals no
number. The dead emitter `i` has a lower confidence than the orphans `j` and `u`, and all three
stand by their names among the others, so `u` has to come both before `i` and behind it. -/
theorem contradictory_confidences_have_no_order :
    let declares : String → Fact := fun name =>
      .definition ⟨name, [], none, "a.gd", 1, "signal " ++ name⟩
    let connects : String → Fact := fun name =>
      .connection ⟨name, "a.gd", 3, none, "f", [], false⟩
    let names := ["a", "b", "c", "d", "e", "f", "g", "h", "i", "j", "k", "l", "m", "n", "o", "p",
      "q", "r", "s", "t", "u"]
    let facts := names.map declares ++
      [.emission ⟨"i", "a.gd", 2, "self", []⟩, connects "j", connects "u"]
    (Graph.empty.addAll facts).unused? false { isolated := 0.0 / 0.0 } = none := by
  intro declares connects names facts
  exact Option.isNone_iff_eq_none.1 (by decide +kernel)

/-! ### Names without a declaration -/

/-- Looking at all names adds reports on those without a declaration to the others. -/
theorem perm_reportsOn_declared (p : Policy) (g : Graph) :
    ((reportsOn p g (g.candidates true)).filter fun r => r.signalName ∈ g.definitions.keys).Perm
      (reportsOn p g (g.candidates false)) := by
  have hnodup : ∀ includeUndeclared, (reportsOn p g (g.candidates includeUndeclared)).Nodup :=
    fun includeUndeclared =>
      (nodup_reportsOn p g (nodup_candidates g includeUndeclared)).of_map _
  refine (List.perm_ext_iff_of_nodup ((hnodup true).filter _) (hnodup false)).2 fun r => ?_
  have hdeclared : ∀ name, name ∈ g.candidates false ↔
      name ∈ g.candidates true ∧ name ∈ g.definitions.keys := by
    intro name
    simp only [Graph.candidates, if_true, Bool.false_eq_true, if_false, Graph.mem_signalNames]
    tauto
  simp only [reportsOn, List.mem_filter, List.mem_filterMap, decide_eq_true_eq, hdeclared]
  constructor
  · rintro ⟨⟨name, hname, hr⟩, hkey⟩
    rw [signalName_of_report? hr] at hkey
    exact ⟨name, ⟨hname, hkey⟩, hr⟩
  · rintro ⟨name, ⟨hname, hkey⟩, hr⟩
    exact ⟨⟨name, hname, hr⟩, (signalName_of_report? hr).symm ▸ hkey⟩

theorem Numeric.declared (h : Numeric g true p) : Numeric g false p := fun r hr =>
  h r (List.mem_of_mem_filter ((perm_reportsOn_declared p g).symm.subset hr))

/-- **Looking at undeclared names only adds reports.** If all confidences are numbers, the reports
on declared names are those on all names without the undeclared ones, in the same order. -/
theorem undeclared_names_only_add_reports (g : Graph) (p : Policy) (h : Numeric g true p) :
    ∃ declared all, g.unused? false p = some declared ∧ g.unused? true p = some all ∧
      declared.reports = all.reports.filter fun r => r.signalName ∈ g.definitions.keys := by
  obtain ⟨declared, hdeclared, -⟩ := exists_unused?_of_numeric h.declared
  obtain ⟨all, hall, hordered⟩ := exists_unused?_of_numeric h
  refine ⟨declared, all, hdeclared, hall, ?_⟩
  obtain ⟨reports, hsort, rfl⟩ := unused?_eq_some_iff.1 hall
  -- the reports that are left are in strict order, so it is enough that they are the right ones
  refine reports_eq_of_precedes h.declared hdeclared ?_ (hordered.filter _)
  exact ((perm_of_sort? hsort).filter _).trans (perm_reportsOn_declared p g)

/-- An orphan without a declaration stands between two declared signals, by its confidence and by
its name. -/
theorem undeclared_names_only_add_reports_between_two :
    let g := Graph.empty.addAll
      [.definition ⟨"quiet", [], none, "a.gd", 1, "signal quiet"⟩,
        .definition ⟨"_sent", [], none, "a.gd", 2, "signal _sent"⟩,
        .definition ⟨"_sent", [], none, "b.gd", 1, "signal _sent"⟩,
        .emission ⟨"_sent", "a.gd", 4, "self", []⟩,
        .connection ⟨"heard", "b.gd", 2, none, "f", [], false⟩]
    Numeric g true {} ∧
      ∃ declared all, g.unused? false {} = some declared ∧ g.unused? true {} = some all ∧
        all.reports.map UnusedReport.signalName = ["quiet", "heard", "_sent"] ∧
        declared.reports.map UnusedReport.signalName = ["quiet", "_sent"] ∧
        declared.reports = all.reports.filter fun r => r.signalName ∈ g.definitions.keys := by
  intro g
  have hnumeric : Numeric g true {} := by decide +kernel
  obtain ⟨declared, all, hdeclared, hall, hsame⟩ := undeclared_names_only_add_reports g {} hnumeric
  -- the names are looked at in their own order, which happens to be the reverse one
  have hordered : (reportsOn {} g (g.candidates true)).reverse.Pairwise Precedes := by
    decide +kernel
  have hreports := reports_eq_of_precedes hnumeric hall (List.reverse_perm _) hordered
  refine ⟨hnumeric, declared, all, hdeclared, hall, ?_, ?_, hsame⟩
  · rw [hreports]
    decide +kernel
  · rw [hsame, hreports]
    decide +kernel

end Unused

end SignalAtlas
