import Mathlib.Tactic
import SignalAtlas.Proofs.Events
import SignalAtlas.Proofs.Reopenings

/-!
# Versions of stored graphs

The version of a stored graph is looked at twice: cut down to 32 bits, before anything else is read,
and then as one of the numbers of the metadata, which has to fit into 32 bits. Only together do the
two keep out other versions (`Store.version_of_ofBytes?`, `Store.ofBytes?_of_told`).

A session that finds no graph forgets its ledger as well, so that no file passes as known
(`Session.get?_ledger_of_open`), and its first analysis is a full one in any mode.
-/

namespace SignalAtlas

open Disk

/-! ### The version of a graph that was read -/

namespace Json

variable {bound n : Nat} {j : Json}

theorem natBelow?_eq_some_iff : j.natBelow? bound = some n ↔ j = .nat n ∧ n < bound := by
  cases j with
  | int k =>
    simp only [natBelow?, nat, int.injEq, Option.ite_none_right_eq_some, Option.some.injEq]
    omega
  | null => simp [natBelow?, nat]
  | bool b => simp [natBelow?, nat]
  | real x => simp [natBelow?, nat]
  | string s => simp [natBelow?, nat]
  | array items => simp [natBelow?, nat]
  | object members => simp [natBelow?, nat]

/-- A field of a record that was given as an object is the member of that name. -/
theorem getElem?_of_fields? {names : List String} {fields : List (Option Json)} {v : Json}
    {name : String} {i : Nat} (h : j.fields? names = some fields) (hi : names[i]? = some name)
    (hv : j.member? name = some v) : fields[i]? = some (some v) := by
  cases j with
  | object ms =>
    cases h
    rw [List.getElem?_map, hi]
    exact congrArg some hv
  | null => cases hv
  | bool b => cases hv
  | int k => cases hv
  | real x => cases hv
  | string s => cases hv
  | array items => cases hv

end Json

theorem Json.eq_word32_of_word32? {j : Json} {w : UInt32} (h : j.word32? = some w) :
    j = .word32 w := by
  obtain ⟨n, hn, rfl⟩ := Option.map_eq_some_iff.1 h
  obtain ⟨rfl, hlt⟩ := natBelow?_eq_some_iff.1 hn
  rw [word32, UInt32.toNat_ofNat_of_lt' hlt]

theorem Json.word64?_word32 (w : UInt32) : (word32 w).word64? = some w.toUInt64 := by
  have hlt : w.toNat < UInt64.size := w.toNat_lt.trans (by decide)
  rw [word64?, word32, natBelow?_eq_some_iff.2 ⟨rfl, hlt⟩, Option.map_some]
  refine congrArg some (UInt64.toNat_inj.1 ?_)
  rw [UInt64.toNat_ofNat_of_lt' hlt, UInt32.toNat_toUInt64]

theorem Metadata.word32?_of_ofJson? {j v : Json} {m : Metadata} (h : ofJson? j = some m)
    (hv : j.member? "schemaVersion" = some v) : v.word32? = some m.schemaVersion := by
  unfold ofJson? at h
  split at h
  · next hfields =>
    cases Json.getElem?_of_fields? (i := 0) hfields rfl hv
    simp only [Option.bind_eq_bind, Option.bind_eq_some_iff, Option.pure_def,
      Option.some.injEq] at h
    obtain ⟨version, hversion, _, -, _, -, _, -, _, -, _, -, rfl⟩ := h
    exact hversion
  · cases h

theorem Graph.metadata_of_ofJson? {j v : Json} {g : Graph} (h : ofJson? j = some g)
    (hv : j.member? "metadata" = some v) : Metadata.ofJson? v = some g.metadata := by
  unfold ofJson? at h
  split at h
  · next hfields =>
    cases Json.getElem?_of_fields? (i := 3) hfields rfl hv
    simp only [Option.bind_eq_bind, Option.bind_eq_some_iff, Option.pure_def,
      Option.some.injEq] at h
    obtain ⟨_, -, _, -, _, -, metadata, hmetadata, rfl⟩ := h
    exact hmetadata
  · cases h

namespace Store

/-- A graph that is read tells the present version, in full and not only in its last 32 bits. -/
theorem version_of_ofBytes? {b : Bytes} {g : Graph} (h : ofBytes? b = some g) :
    g.metadata.schemaVersion = Graph.schema ∧
      ∃ j, Json.parse? b = some j ∧ toldVersion j = some (.word32 Graph.schema) := by
  unfold ofBytes? at h
  split at h
  · next j hj =>
    rw [Option.ite_none_right_eq_some] at h
    obtain ⟨hversion, hg⟩ := h
    have hversion' : (((toldVersion j).bind Json.word64?).getD 0).toUInt32 = Graph.schema :=
      hversion
    cases hm : j.member? "metadata" with
    | none => simp [toldVersion, hm, Graph.schema] at hversion'
    | some metadata =>
      have hmetadata := Graph.metadata_of_ofJson? hg hm
      cases hv : metadata.member? "schemaVersion" with
      | none => simp [toldVersion, hm, hv, Graph.schema] at hversion'
      | some v =>
        have htold : toldVersion j = some v := by
          rw [toldVersion, hm]
          exact hv
        rw [Json.eq_word32_of_word32? (Metadata.word32?_of_ofJson? hmetadata hv)] at htold
        rw [htold, Option.bind_some, Json.word64?_word32, Option.getD_some,
          UInt32.toUInt32_toUInt64] at hversion'
        exact ⟨hversion', j, hj, hversion' ▸ htold⟩
  · cases h

theorem ofBytes?_of_load? {d : Disk} {root : Path} {g : Graph} (h : load? d root = some g) :
    ∃ b, d.read (graphPath root) = .ok b ∧ ofBytes? b = some g := by
  unfold load? at h
  split at h
  · next b hb => exact ⟨b, hb, h⟩
  · cases h

/-- Whatever tells another version is not read, though the last 32 bits of that may agree. -/
theorem ofBytes?_of_told {l metadata : List (String × Json)} {n : Nat}
    (hl : (l.map Prod.fst).Nodup) (hmetadata : (metadata.map Prod.fst).Nodup)
    (hm : l.lookup "metadata" = some (.object metadata))
    (hv : metadata.lookup "schemaVersion" = some (.nat n)) (hw : Raw.whole (.object l) = true)
    (hne : n ≠ Graph.schema.toNat) :
    ofBytes? (Text.bytes (Json.object l).pretty) = none := by
  rw [Option.eq_none_iff_forall_ne_some]
  intro g hg
  obtain ⟨-, j, hj, htold⟩ := version_of_ofBytes? hg
  rw [Json.parse?_pretty hw, show Raw.maxDepth = 125 + 2 from rfl] at hj
  have hread := count?_reread 125 n
  have hschema : (Json.word32 Graph.schema).count? = some Graph.schema.toNat :=
    Json.natBelow?_eq_some_iff.2 ⟨rfl, by decide⟩
  rw [← toldVersion_of_reread hl hmetadata hm hv hj, htold, Option.bind_some, hschema] at hread
  split at hread
  · exact hne (Option.some.inj hread).symm
  · cases hread

end Store

/-! ### Sessions without a graph -/

section

open Scan

variable {d : Disk} {l : Ledger} {root : Path} {m : Machine} {p : Provider} {s : Session}
  {mode : ScanMode}

theorem Ledger.isStale_of_get?_eq_none {q : Path} (h : l.get? q = none) :
    l.isStale d q = true := by
  unfold isStale
  rw [h]

/-- With a ledger that knows no file every file is due. -/
theorem Scan.jobs_of_unknown {discovered : List Path} (h : ∀ q, l.get? q = none) :
    jobs d .incremental l root discovered = discovered.map (job root) := by
  unfold jobs
  rw [List.filter_eq_self.2 fun q _ => by simp [Ledger.isStale_of_get?_eq_none (h q)]]

theorem Scan.run_of_unknown {o : ScanOptions} (h : ∀ q, l.get? q = none) :
    run m p o .incremental l d root = run m p o .full l d root := by
  unfold run runAt
  simp only [jobs_of_unknown h, jobs_full]

namespace Session

/-- A session whose ledger knows no file parses as if all were asked for. -/
theorem analyze_of_unknown (h : ∀ q, s.ledger.get? q = none) :
    s.analyze m p d .incremental = s.analyze m p d .full := by
  unfold analyze
  simp only [run_of_unknown h]

theorem stats_of_analyze {a : Analysis} (h : (s.analyze m p d mode).result = .ok a) :
    ∃ o, (run m p s.options.scan mode s.ledger d s.root).result = .ok o ∧ a.stats = o.stats := by
  obtain ⟨o, ho, rfl⟩ := outcome_of_analyze h
  exact ⟨o, ho, rfl⟩

/-- A full analysis skips no file: it parses or drops each script that it finds. -/
theorem counts_full {a : Analysis} (h : (s.analyze m p d .full).result = .ok a) :
    a.stats.filesSkipped = 0 ∧ ∀ r, resolveRoot d s.root = .ok r →
      a.stats.filesDiscovered = (d.scripts r).length ∧
      (m.Fair → ((d.scripts r).Pairwise fun x y => x.same y = false) →
        a.stats.filesParsed + a.stats.filesFailed = (d.scripts r).length) := by
  obtain ⟨o, ho, hstats⟩ := stats_of_analyze h
  rcases run_cases p .full s.ledger d s.root with ⟨e, -, hfailed⟩ | ⟨r, hr, -, hrun⟩
  · rw [hfailed] at ho
    cases ho
  · rcases hparse : parse m p s.options.scan d (jobs d .full s.ledger r (d.scripts r)) with
      ⟨d', res, done⟩
    rw [hrun, runAt_eq hparse] at ho
    cases ho
    rw [hstats]
    refine ⟨by simp [stats, jobs_full], fun r' hr' => ?_⟩
    cases hr.symm.trans hr'
    refine ⟨rfl, fun hm hdistinct => ?_⟩
    have hjobs : (jobs d .full s.ledger r (d.scripts r)).Pairwise fun x y =>
        x.path.same y.path = false := by
      rw [jobs_full]
      exact List.pairwise_map.2 hdistinct
    have hsum := (parse_done (p := p) (o := s.options.scan) (d := d) hm hjobs).2
    rw [hparse] at hsum
    exact hsum.trans (by rw [jobs_full, List.length_map])

/-- Without a graph a session starts from nothing, whatever the ledger says. -/
theorem get?_ledger_of_open {o : SessionOptions} (h : Session.open d root o = .ok s)
    (hg : Store.load? d s.root = none) (q : Path) : s.ledger.get? q = none := by
  have hstate : s.ledger = _ := congrArg Prod.fst (state_of_open h)
  rw [hstate]
  split
  · rw [restore_none hg]
    exact Ledger.get?_clear _ q
  · rfl

end Session

end

/-- A graph is loaded only if it tells the present version in full. If none can be loaded, a session
opens without any knowledge of files, whatever its ledger says: its first incremental analysis does
what a full one does. It skips no file, and parses or drops each script that it finds. -/
theorem unusable_graph_forces_full_parse (d : Disk) :
    (∀ root g, Store.load? d root = some g → g.metadata.schemaVersion = Graph.schema ∧
      ∃ b j, d.read (Store.graphPath root) = .ok b ∧ Json.parse? b = some j ∧
        Store.toldVersion j = some (.word32 Graph.schema)) ∧
    ∀ root r o, Scan.resolveRoot d root = .ok r → Store.load? d r = none →
      ∃ s, Session.open d root o = .ok s ∧ s.root = r ∧ ∀ (m : Machine) (p : Provider) (d' : Disk),
        Scan.jobs d' .incremental s.ledger r (d'.scripts r) = (d'.scripts r).map (Scan.job r) ∧
        s.analyze m p d' .incremental = s.analyze m p d' .full ∧
        ∀ a, (s.analyze m p d' .incremental).result = .ok a → a.stats.filesSkipped = 0 ∧
          ∀ r', Scan.resolveRoot d' r = .ok r' →
            a.stats.filesDiscovered = (d'.scripts r').length ∧
            (m.Fair → ((d'.scripts r').Pairwise fun x y => x.same y = false) →
              a.stats.filesParsed + a.stats.filesFailed = (d'.scripts r').length) := by
  constructor
  · intro root g h
    obtain ⟨b, hread, hb⟩ := Store.ofBytes?_of_load? h
    obtain ⟨hschema, j, hj, htold⟩ := Store.version_of_ofBytes? hb
    exact ⟨hschema, b, j, hread, hj, htold⟩
  · intro root r o hr hg
    obtain ⟨s, hs⟩ := Session.exists_open hr o
    obtain rfl := Session.root_eq_of_open hs hr
    have hunknown := Session.get?_ledger_of_open hs hg
    refine ⟨s, hs, rfl, fun m p d' => ⟨Scan.jobs_of_unknown hunknown, ?_, fun a ha => ?_⟩⟩
    · exact Session.analyze_of_unknown hunknown
    · rw [Session.analyze_of_unknown hunknown] at ha
      exact Session.counts_full ha

/-- A ledger lets a script pass, but the version of the graph beside it has one bit too many. -/
theorem unusable_graph_forces_full_parse_of_known_script :
    let q := pathOf ["p", "a.gd"]
    let l := Ledger.empty.update q 5
    let metadata : Json := .object [("schemaVersion", .nat 4294967297), ("timestamp", .nat 0),
      ("fileCount", .nat 0), ("signalCount", .nat 0), ("emissionCount", .nat 0),
      ("connectionCount", .nat 0)]
    let g : Json := .object [("definitions", .object []), ("emissions", .object []),
      ("connections", .object []), ("metadata", metadata)]
    let d := holding (withState [("a.gd", .file [] 5000000)] g l.toJson)
    let p := Provider.reading fun _ _ => .parsed .declaring
    Scan.resolveRoot d (pathOf ["p"]) = .ok (pathOf ["p"]) ∧ Store.load? d (pathOf ["p"]) = none ∧
      l.isStale d q = false ∧ ∃ s a, Session.open d (pathOf ["p"]) {} = .ok s ∧
        (s.analyze .willing p d .incremental).result = .ok a ∧ a.stats.filesSkipped = 0 ∧
        a.stats.filesDiscovered = 1 ∧ a.stats.filesParsed + a.stats.filesFailed = 1 := by
  intro q l metadata g d p
  have hroot : Scan.resolveRoot d (pathOf ["p"]) = .ok (pathOf ["p"]) := resolveRoot_holding _
  have hload : Store.load? d (pathOf ["p"]) = none :=
    (Store.load?_of_stores (stores_withState rfl).1 (by decide)).trans
      (Store.ofBytes?_of_told (by decide) (by decide) rfl rfl rfl (by decide))
  have hstale : l.isStale d q = false := by
    have hitem : d.item q = .ok (.file [] 5000000) := item_holding rfl (by decide) (by decide)
    refine Ledger.isStale_eq_false_iff.2 ⟨⟨q.text, 5, Graph.schema⟩, _, ?_, rfl, hitem, ?_⟩
    · rw [Ledger.get?_update, if_pos rfl]
      rfl
    · rfl
  have hnamed : Discovery.Named (outside [("a.gd", .file [] 5000000)]) :=
    .of_names (by decide) (by decide)
  have hbelow :
      Discovery.below true [("a.gd", .file [] 5000000)] = ([["a.gd"]] : List Location) := by
    decide +kernel
  have hscripts : d.scripts (pathOf ["p"]) = [q] :=
    (sameScripts_withState hnamed).scripts.trans
      (scripts_holding hnamed hbelow (List.pairwise_singleton _ _))
  obtain ⟨s, a, hs, ha⟩ := Session.exists_first_analysis
    (project_holding (by rw [outside_withState]; exact hnamed)) hroot
    (Provider.dependsOnFile_reading _) rfl Machine.fair_willing (fun _ _ => rfl)
    (storable_withState rfl) {} .incremental
  obtain ⟨s', hs', -, hall⟩ := (unusable_graph_forces_full_parse d).2 _ _ {} hroot hload
  obtain rfl := Except.ok.inj (hs.symm.trans hs')
  obtain ⟨hskipped, hcounts⟩ := (hall .willing p d).2.2 a ha
  obtain ⟨hfound, hsum⟩ := hcounts _ hroot
  rw [hscripts] at hfound hsum
  exact ⟨hroot, hload, hstale, s, a, hs, ha, hskipped, hfound,
    hsum Machine.fair_willing (List.pairwise_singleton _ _)⟩

end SignalAtlas
