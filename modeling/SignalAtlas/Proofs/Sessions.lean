import Mathlib.Tactic
import SignalAtlas.Proofs.Scans
import SignalAtlas.Proofs.Stores

/-!
# Analyses

An analysis scans a project, brings the table and the ledger of its session up to date and builds
the graph. The outcome of a provider is taken to depend on the file alone
(`Provider.DependsOnFile`).

* `Project.analyze_eq`: what an analysis leaves behind, as a function of the outcomes of its jobs;
* `Session.table_absorb_full`: after a scan that answers for every file the table holds what was
  parsed and nothing else.
-/

namespace SignalAtlas

/-- A provider that reads files only, and whose outcome for a file depends on nothing but its path
and its contents. -/
def Provider.DependsOnFile (p : Provider) (parse : Path → Except IoError Bytes → Attempt) : Prop :=
  ∀ d path, p.parseFile d path = (d, parse path (d.read path))

/-- How an attempt to parse given contents ends. -/
def Provider.attemptOn (g : Grammar) (path : Path) (contents : Except IoError Bytes) : Attempt :=
  match contents with
  | .error e => .failed (.io e)
  | .ok b =>
    match b.text? with
    | none => .failed (.encoding (path.text ++ ": " ++ ((Bytes.flaw? b).getD ⟨0, none⟩).message))
    | some source =>
      match Script.parse g source with
      | .ok s => .parsed s
      | .error e => .failed (.parse e)

/-- The provider of a grammar depends on the file alone. -/
theorem Provider.dependsOnFile_ofGrammar (g : Grammar) :
    (ofGrammar g).DependsOnFile (attemptOn g) := by
  intro d path
  show (d, parseText g d path) = _
  unfold parseText readText attemptOn
  cases d.read path with
  | error e => rfl
  | ok b =>
    cases hb : b.text? with
    | none => simp only [hb]
    | some source =>
      cases hs : Script.parse g source with
      | ok s => simp only [hb, hs]
      | error e => simp only [hb, hs]

theorem Provider.attemptOn_ne_crashed (g : Grammar) (path : Path) (contents : Except IoError Bytes)
    (c : Crash) : attemptOn g path contents ≠ .crashed c := by
  unfold attemptOn
  split
  · nofun
  · split
    · nofun
    · split <;> nofun

namespace Project

open Disk Scan Pool

variable {d : Disk} {loc : Location} {es : List (Bytes × Item)} {mode : ScanMode} {l : Ledger}
  {r : PoolResult} {outcome : Job → Except Crash Message} {s : Session} {p : Provider} {m : Machine}

/-- The counts of a scan with a given result. -/
def statsOf (m : Machine) (o : ScanOptions) (d : Disk) (loc : Location) (js : List Job)
    (r : PoolResult) : ScanStats :=
  stats (d.scripts (pathOf loc)).length js.length (workers m o js.length) r

theorem runAt_eq (h : Project d loc es) (hm : m.Fair)
    (hfix : Fixed p (due d loc mode l) outcome (· = d)) (o : ScanOptions) :
    let js := due d loc mode l
    let r := resultOn m o outcome js
    (runAt m p o mode l d (pathOf loc)).disk = d ∧
      (runAt m p o mode l d (pathOf loc)).ledger = record l r.parsed ∧
      (runAt m p o mode l d (pathOf loc)).result =
        .ok ⟨pathOf loc, d.scripts (pathOf loc), r.parsed, r.errors, statsOf m o d loc js r⟩ := by
  intro js r
  obtain ⟨hdisk, hparse⟩ := parse_eq (o := o) hfix rfl hm h.nodup_key_jobs h.nodup_relative_jobs
  have hp : parse m p o d (jobs d mode l (pathOf loc) (d.scripts (pathOf loc))) =
      (d, r, js.length) := Prod.ext hdisk hparse
  simp only [runAt, hp]
  exact ⟨trivial, trivial, rfl⟩

theorem run_eq (o : ScanOptions) (hresolve : resolveRoot d (pathOf loc) = .ok (pathOf loc))
    (hinit : p.init = .ok ()) :
    run m p o mode l d (pathOf loc) = runAt m p o mode l d (pathOf loc) := by
  unfold run
  rw [hresolve]
  simp only [hinit]

theorem run_result (h : Project d loc es) (hm : m.Fair)
    (hfix : Fixed p (due d loc mode l) outcome (· = d)) (o : ScanOptions)
    (hresolve : resolveRoot d (pathOf loc) = .ok (pathOf loc)) (hinit : p.init = .ok ()) :
    let r := resultOn m o outcome (due d loc mode l)
    (run m p o mode l d (pathOf loc)).result = .ok ⟨pathOf loc, d.scripts (pathOf loc), r.parsed,
      r.errors, statsOf m o d loc (due d loc mode l) r⟩ := by
  intro r
  rw [run_eq o hresolve hinit]
  exact (h.runAt_eq hm hfix o).2.2

/-- What an analysis leaves behind once its scan has a result. -/
def report (m : Machine) (s : Session) (d : Disk) (loc : Location) (r : PoolResult)
    (st : ScanStats) : Disk × Except ScanError Analysis :=
  let s' := after d loc s.ledger r st s
  let g := Graph.ofFiles d.now s'.table.values
  let stored := if s.options.persist then Session.persist m s' d g else (d, .ok ())
  (stored.1, stored.2.map fun _ => ⟨g, st, r.errors⟩)

theorem analyze_eq (h : Project d loc es) (hm : m.Fair) (hroot : s.root = pathOf loc)
    (hresolve : resolveRoot d (pathOf loc) = .ok (pathOf loc)) (hinit : p.init = .ok ())
    (hfix : Fixed p (due d loc mode s.ledger) outcome (· = d)) :
    let js := due d loc mode s.ledger
    let r := resultOn m s.options.scan outcome js
    let st := statsOf m s.options.scan d loc js r
    (s.analyze m p d mode).session = after d loc s.ledger r st s ∧
      ((s.analyze m p d mode).disk, (s.analyze m p d mode).result) = report m s d loc r st := by
  intro js r st
  have hrun : run m p s.options.scan mode s.ledger d s.root =
      runAt m p s.options.scan mode s.ledger d (pathOf loc) := by
    rw [hroot, run_eq s.options.scan hresolve hinit]
  obtain ⟨hdisk, hledger, hresult⟩ := h.runAt_eq hm hfix s.options.scan
  unfold Session.analyze
  simp only [hrun, hresult, hdisk, hledger]
  exact ⟨rfl, rfl⟩

theorem analyze_ok {a : Analysis} (h : Project d loc es) (hm : m.Fair) (hroot : s.root = pathOf loc)
    (hresolve : resolveRoot d (pathOf loc) = .ok (pathOf loc)) (hinit : p.init = .ok ())
    (hfix : Fixed p (due d loc mode s.ledger) outcome (· = d))
    (hok : (s.analyze m p d mode).result = .ok a) :
    let js := due d loc mode s.ledger
    let r := resultOn m s.options.scan outcome js
    let st := statsOf m s.options.scan d loc js r
    a = ⟨Graph.ofFiles d.now (after d loc s.ledger r st s).table.values, st, r.errors⟩ := by
  intro js r st
  have heq := congrArg Prod.snd (h.analyze_eq hm hroot hresolve hinit hfix).2
  rw [hok, report] at heq
  simp only [Except.map] at heq
  split at heq
  · cases heq
  · exact Except.ok.inj heq

/-- An analysis succeeds once its scan has a result and nothing keeps it from storing its state. -/
theorem exists_analysis (h : Project d loc es) (hm : m.Fair) (hroot : s.root = pathOf loc)
    (hresolve : resolveRoot d (pathOf loc) = .ok (pathOf loc)) (hinit : p.init = .ok ())
    (hfix : Fixed p (due d loc mode s.ledger) outcome (· = d))
    (hstore : s.options.persist = true →
      ∀ s' g, s'.root = pathOf loc → (Session.persist m s' d g).2 = .ok ()) :
    ∃ a, (s.analyze m p d mode).result = .ok a := by
  have heq := congrArg Prod.snd (h.analyze_eq hm hroot hresolve hinit hfix).2
  simp only [report] at heq
  rw [heq]
  split
  · next hpersist =>
    rw [hstore hpersist]
    · exact ⟨_, rfl⟩
    · rw [root_after, hroot]
  · exact ⟨_, rfl⟩

end Project

namespace Session

open Disk Scan

variable {m : Machine} {p : Provider} {s : Session} {d : Disk} {mode : ScanMode}

/-- An analysis either fails in its scan, and then leaves all as it was, or finds the project and a
provider that is ready. -/
theorem analyze_cases (m : Machine) (p : Provider) (s : Session) (d : Disk) (mode : ScanMode) :
    ((s.analyze m p d mode).session = s ∧ (s.analyze m p d mode).disk = d ∧
        ∃ e, (run m p s.options.scan mode s.ledger d s.root).result = .error e ∧
          (s.analyze m p d mode).result = .error e ∧ (∀ x, e ≠ .graph x) ∧ ∀ x, e ≠ .io x) ∨
      ((∃ r, resolveRoot d s.root = .ok r) ∧ p.init = .ok ()) := by
  unfold analyze run
  cases hr : resolveRoot d s.root with
  | error e =>
    refine .inl ⟨rfl, rfl, e, rfl, rfl, ?_⟩
    unfold resolveRoot at hr
    split at hr
    · cases hr
      exact ⟨nofun, nofun⟩
    · split at hr
      · cases hr
      · cases hr
        exact ⟨nofun, nofun⟩
  | ok r =>
    cases hi : p.init with
    | error e => exact .inl ⟨rfl, rfl, _, rfl, rfl, nofun, nofun⟩
    | ok u => exact .inr ⟨⟨r, rfl⟩, rfl⟩

theorem root_analyze (m : Machine) (p : Provider) (s : Session) (d : Disk) (mode : ScanMode) :
    (s.analyze m p d mode).session.root = s.root := by
  unfold analyze
  simp only
  split <;> rfl

theorem options_analyze (m : Machine) (p : Provider) (s : Session) (d : Disk)
    (mode : ScanMode) : (s.analyze m p d mode).session.options = s.options := by
  unfold analyze
  simp only
  split <;> rfl

theorem resolves_of_analyze_ok {a : Analysis} (h : (s.analyze m p d mode).result = .ok a) :
    (∃ r, resolveRoot d s.root = .ok r) ∧ p.init = .ok () := by
  rcases analyze_cases m p s d mode with ⟨-, -, e, -, he, -⟩ | h'
  · rw [h] at he
    cases he
  · exact h'

/-- An analysis shows the table of the session after its scan. -/
theorem outcome_of_analyze {a : Analysis} (h : (s.analyze m p d mode).result = .ok a) :
    let scan := Scan.run m p s.options.scan mode s.ledger d s.root
    ∃ out, scan.result = .ok out ∧
      a = ⟨Graph.ofFiles scan.disk.now (s.absorb scan.ledger out).table.values, out.stats,
        out.errors⟩ := by
  intro scan
  unfold analyze at h
  simp only at h
  split at h
  · cases h
  · next out hout =>
    refine ⟨out, hout, ?_⟩
    simp only [Except.map] at h
    split at h
    · cases h
    · cases h
      rfl

end Session

/-! ### Full analyses -/

namespace Session

theorem exists_find?_extracted {files : List ParsedFile} {k : String}
    (hk : k ∈ files.map ParsedFile.relativePath) :
    ∃ v, SortedMap.find? k (extracted files).reverse = some v := by
  have hmem : k ∈ (extracted files).reverse.map Prod.fst := by
    rw [List.map_reverse, List.mem_reverse, keys_extracted]
    exact hk
  generalize (extracted files).reverse = l at hmem ⊢
  induction l with
  | nil => cases hmem
  | cons e l ih =>
    rw [← Prod.eta e, SortedMap.find?]
    split
    · exact ⟨e.2, rfl⟩
    · next hne =>
      refine ih ((List.mem_cons.1 hmem).resolve_left fun he => hne ?_)
      rw [he, Std.LawfulEqOrd.compare_eq_iff_eq]

/-- After a scan that parses or drops every file found the table is made up of what was parsed,
whatever it was before and even if files share a relative path. -/
theorem table_absorb_full (s : Session) (l : Ledger) (out : ScanOutcome)
    (honce : (out.files.map ParsedFile.job ++ out.errors.map FileError.job).Perm
      (out.discovered.map (Scan.job out.root))) :
    (s.absorb l out).table = .ofList (extracted out.files) := by
  refine SortedMap.ext_get? fun k => ?_
  by_cases hk : k ∈ out.files.map ParsedFile.relativePath
  · obtain ⟨v, hv⟩ := exists_find?_extracted hk
    rw [table_absorb, SortedMap.get?_insertAll, SortedMap.get?_ofList, hv, Option.some_or]
  · rw [get?_table_absorb_of_not_mem s l out hk, SortedMap.ofList,
      SortedMap.get?_insertAll_of_not_mem _ (by rwa [keys_extracted]), SortedMap.get?_empty]
    split
    · rfl
    · next herrors =>
      refine if_neg fun hfound => ?_
      have hrelative := honce.map Job.relativePath
      rw [List.map_append, List.map_map, List.map_map, List.map_map] at hrelative
      exact (List.mem_append.1 (hrelative.mem_iff.2 hfound)).elim hk herrors

end Session

theorem Scan.jobs_full {d : Disk} {l : Ledger} {root : Path} {discovered : List Path} :
    jobs d .full l root discovered = discovered.map (job root) := by
  unfold jobs
  rw [List.filter_eq_self.2 fun _ _ => by simp]

namespace Provider.DependsOnFile

open Pool

variable {p : Provider} {parse : Path → Except IoError Bytes → Attempt} {d d' : Disk}

theorem outcomeOn_congr (h : p.DependsOnFile parse) {j : Job}
    (hi : d.item j.path = d'.item j.path) :
    outcomeOn p d j = outcomeOn p d' j := by
  have hread : d.read j.path = d'.read j.path := by rw [Disk.read, Disk.read, hi]
  unfold outcomeOn parseOne
  rw [hi, h d, h d', hread]
  cases d'.item j.path with
  | error e => rfl
  | ok it => cases parse j.path (d'.read j.path) <;> rfl

theorem parse_of_outcomeOn (h : p.DependsOnFile parse) {j : Job} {f : ParsedFile}
    (ho : outcomeOn p d j = .ok (.parsed f)) :
    ∃ it, d.item j.path = .ok it ∧ parse j.path (d.read j.path) = .parsed f.script ∧
      f.mtime = Disk.milliseconds it.modified := by
  unfold outcomeOn parseOne at ho
  rw [h d] at ho
  cases hi : d.item j.path with
  | error e =>
    rw [hi] at ho
    cases ho
  | ok it =>
    rw [hi] at ho
    cases hs : parse j.path (d.read j.path) with
    | parsed sc =>
      simp only [hs] at ho
      cases ho
      exact ⟨it, rfl, rfl, rfl⟩
    | failed e =>
      simp only [hs] at ho
      cases ho
    | crashed c =>
      simp only [hs] at ho
      cases ho

theorem crashed_of_outcomeOn (h : p.DependsOnFile parse) {j : Job} {c : Crash}
    (ho : outcomeOn p d j = .error c) : parse j.path (d.read j.path) = .crashed c := by
  unfold outcomeOn parseOne at ho
  rw [h d] at ho
  cases hi : d.item j.path with
  | error e =>
    rw [hi] at ho
    cases ho
  | ok it =>
    rw [hi] at ho
    cases hs : parse j.path (d.read j.path) with
    | parsed sc =>
      simp only [hs] at ho
      cases ho
    | failed e =>
      simp only [hs] at ho
      cases ho
    | crashed c' =>
      simp only [hs] at ho
      cases ho
      rfl

theorem outcomeOn_of_parse (h : p.DependsOnFile parse) {j : Job} {it : Item} {sc : Script}
    (hi : d.item j.path = .ok it) (hs : parse j.path (d.read j.path) = .parsed sc) :
    outcomeOn p d j = .ok (.parsed
      ⟨sc, j.path, j.relativePath, sizeOfItem it, Disk.milliseconds it.modified⟩) := by
  unfold outcomeOn parseOne
  rw [hi, h d, hs]

theorem outcomeOn_of_failure (h : p.DependsOnFile parse) {j : Job} {it : Item} {e : SourceError}
    (hi : d.item j.path = .ok it) (hs : parse j.path (d.read j.path) = .failed e) :
    outcomeOn p d j = .ok (.failed (dropped j (kindOf e) e.message)) := by
  unfold outcomeOn parseOne
  rw [hi, h d, hs]

theorem outcomeOn_of_crash (h : p.DependsOnFile parse) {j : Job} {it : Item} {c : Crash}
    (hi : d.item j.path = .ok it) (hs : parse j.path (d.read j.path) = .crashed c) :
    outcomeOn p d j = .error c := by
  unfold outcomeOn parseOne
  rw [hi, h d, hs]

/-- The outcomes on a disk are those on another one that has the same files. -/
theorem fixed (h : p.DependsOnFile parse) {js : List Job}
    (hi : ∀ j ∈ js, d.item j.path = d'.item j.path) : Fixed p js (outcomeOn p d') (· = d) := by
  rintro _ rfl j hj
  exact ⟨parseOne_fst (fun path => by rw [h]) j, h.outcomeOn_congr (hi j hj)⟩

end Provider.DependsOnFile

namespace Project

open Disk Scan Pool Discovery

variable {d d' : Disk} {loc : Location} {es es' : List (Bytes × Item)} {l : Ledger}
  {r : PoolResult} {outcome : Job → Except Crash Message} {st : ScanStats} {s : Session}

theorem due_full : due d loc .full l = (d.scripts (pathOf loc)).map (job (pathOf loc)) :=
  jobs_full

/-- After a full scan the table holds the facts of the parsed files and nothing else. -/
theorem table_after_full (hr : Answers outcome (due d loc .full l) r) :
    (after d loc l r st s).table = .ofList (Session.extracted r.parsed) := by
  have honce := hr.once
  rw [due_full] at honce
  exact Session.table_absorb_full s _ ⟨pathOf loc, d.scripts (pathOf loc), r.parsed, r.errors, st⟩
    honce

/-- What a full analysis gives is determined by the outcomes of its jobs. -/
theorem full_analysis {p : Provider} {m : Machine} {a : Analysis} (h : Project d loc es)
    (hm : m.Fair) (hroot : s.root = pathOf loc)
    (hresolve : resolveRoot d (pathOf loc) = .ok (pathOf loc)) (hinit : p.init = .ok ())
    (hfix : Fixed p (due d loc .full s.ledger) outcome (· = d))
    (hok : (s.analyze m p d .full).result = .ok a) :
    let js := due d loc .full s.ledger
    let r := resultOn m s.options.scan outcome js
    let st := statsOf m s.options.scan d loc js r
    (run m p s.options.scan .full s.ledger d s.root).result =
        .ok ⟨pathOf loc, d.scripts (pathOf loc), r.parsed, r.errors, st⟩ ∧
      a = ⟨Graph.ofFiles d.now (SortedMap.ofList (Session.extracted r.parsed)).values, st,
        r.errors⟩ := by
  intro js r st
  have hans : Answers outcome js r := answers_resultOn fun j hj _ => hfix.job_eq rfl hj
  have ha := h.analyze_ok hm hroot hresolve hinit hfix hok
  refine ⟨?_, ?_⟩
  · rw [hroot]
    exact h.run_result hm hfix s.options.scan hresolve hinit
  · rw [ha, table_after_full hans]

/-- In a full analysis, a single worker that crashes at once takes down the whole project. -/
theorem fileCount_of_crash {p : Provider} {parse : Path → Except IoError Bytes → Attempt}
    {m : Machine} {a : Analysis} {q : Path} {qs : List Path} {it : Item} {c : Crash}
    (h : Project d loc es)
    (hm : m.Fair) (hp : p.DependsOnFile parse) (hroot : s.root = pathOf loc)
    (hok : (s.analyze m p d .full).result = .ok a) (hscripts : d.scripts (pathOf loc) = q :: qs)
    (hi : d.item q = .ok it) (hc : parse q (d.read q) = .crashed c)
    (hserial : isSerial s.options.scan (qs.length + 1) = false)
    (hworkers : workers m s.options.scan (qs.length + 1) = 1) :
    a.graph.metadata.fileCount = 0 := by
  obtain ⟨⟨r, hresolve⟩, hinit⟩ := Session.resolves_of_analyze_ok hok
  rw [hroot] at hresolve
  obtain ⟨time, -, hat⟩ := h.folder
  obtain ⟨rfl, -⟩ := of_folder h.isName h.isText hat h.named hresolve
  have hgraph := (h.full_analysis hm hroot hresolve hinit (hp.fixed fun _ _ => rfl) hok).2
  have hjobs : due d loc .full s.ledger =
      job (pathOf loc) q :: qs.map (job (pathOf loc)) := by
    rw [due_full, hscripts, List.map_cons]
  rw [hjobs, parsed_resultOn_of_crash] at hgraph
  · rw [hgraph]
    rfl
  · simpa using hserial
  · simpa using hworkers
  · exact hp.outcomeOn_of_crash hi hc

theorem scripts_congr (h : Project d loc es) (h' : Project d' loc es')
    (he : outside es = outside es') : d.scripts (pathOf loc) = d'.scripts (pathOf loc) := by
  rw [h.scripts_eq, h'.scripts_eq, ← below_outside, he, below_outside]

theorem item_congr (h : Project d loc es) (h' : Project d' loc es')
    (he : outside es = outside es') {q : Path} (hq : q ∈ d.scripts (pathOf loc)) :
    d.item q = d'.item q := by
  obtain ⟨names, hm, rfl⟩ := h.mem_scripts.1 hq
  obtain ⟨hp, b, time, hat⟩ := h.file_of_mem hm
  rw [(h.item_of_mem hp hat).2, (h'.item_of_mem hp fun t => he ▸ hat t).2]

end Project

theorem Scan.workers_congr {m m' : Machine} (hp : m.processors = m'.processors)
    (hv : m.workersVariable = m'.workersVariable) (o : ScanOptions) (n : Nat) :
    workers m o n = workers m' o n := by
  unfold workers Workers.resolve
  rw [hp, hv]

theorem Scan.resultOn_congr {m m' : Machine} (hp : m.processors = m'.processors)
    (hv : m.workersVariable = m'.workersVariable) (hc : m.crashText = m'.crashText)
    (o : ScanOptions) (outcome : Job → Except Crash Pool.Message) (js : List Job) :
    resultOn m o outcome js = resultOn m' o outcome js := by
  unfold resultOn
  rw [workers_congr hp hv, hc]

/-! ### Projects at a fixed place -/

section Holding

open Disk

/-- A disk with nothing on it but a project. -/
def Disk.holding (es : List (Bytes × Item)) : Disk := ⟨.folder 0 [("p", .folder 0 es)], [], 7⟩

theorem resolveRoot_holding (es : List (Bytes × Item)) :
    Scan.resolveRoot (holding es) (pathOf ["p"]) = .ok (pathOf ["p"]) :=
  resolveRoot_pathOf (by simp) (by decide) rfl (by decide)

theorem item_holding {es : List (Bytes × Item)} {name : Bytes} {b : Bytes} {time : Int}
    (h : es.lookup name = some (.file b time)) (hname : IsName name)
    (hshort : barrier? ["p", name] = none) :
    (holding es).item (pathOf ["p", name]) = .ok (.file b time) := by
  have hat : (holding es).root.at? ["p", name] = some (.file b time) := by
    show (Item.folder 0 es).at? [name] = _
    rw [Item.at?_cons_folder, h]
    rfl
  have hall : ∀ s ∈ [Text.bytes "p", name], IsName s :=
    List.forall_mem_cons.2 ⟨by decide, List.forall_mem_singleton.2 hname⟩
  rw [item_pathOf (by simp) hall hat (Item.notLink_file b time), hshort]
  rfl

theorem project_holding {es : List (Bytes × Item)}
    (hnamed : Discovery.Named (outside es)) : Project (holding es) ["p"] es :=
  (@Project.of_folder _ ["p"] _ _ _ (by decide) (by decide) rfl hnamed (resolveRoot_holding es)).2

theorem scripts_holding {es : List (Bytes × Item)} {places : List Location}
    (hnamed : Discovery.Named (outside es)) (hbelow : Discovery.below true es = places)
    (hsorted : (places.map fun names => pathOf ("p" :: names)).Pairwise fun a b => Path.le a b) :
    (holding es).scripts (pathOf ["p"]) = places.map fun names => pathOf ("p" :: names) := by
  rw [(project_holding hnamed).scripts_eq, hbelow]
  exact List.mergeSort_of_pairwise hsorted

/-- A state folder that holds only files keeps a project storable. -/
theorem storable_holding {es : List (Bytes × Item)}
    (hstate : ∀ it, es.lookup Store.stateFolder = some it → ∃ time es', it = .folder time es' ∧
      ∀ name x, es'.lookup name = some x → ∃ b t, x = .file b t) :
    (holding es).Ready ["p"] ∧ Session.Storable (holding es) ["p"] :=
  Session.storable_of_files rfl hstate (by decide) (by decide)

theorem unstored_holding (es : List (Bytes × Item)) (h : es.lookup Store.stateFolder = none) :
    ((holding es).Ready ["p"] ∧ Session.Storable (holding es) ["p"]) ∧
      ∀ name b time, (holding es).stored ["p"] name ≠ some (.file b time) := by
  refine ⟨storable_holding fun it hit => ?_, fun name b time hb => ?_⟩
  · rw [h] at hit
    cases hit
  · have hnone : (holding es).root.at? ([Text.bytes "p"] ++ [Store.stateFolder]) = none := by
      show (Item.folder 0 es).at? [Store.stateFolder] = none
      rw [Item.at?_cons_folder, h]
      rfl
    obtain ⟨_, _, hfolder, -⟩ := folder_of_at?_concat hb
    rw [hnone] at hfolder
    cases hfolder

end Holding

/-- The provider that parses files by their contents. -/
def Provider.reading (parse : Path → Except IoError Bytes → Attempt) : Provider where
  init := .ok ()
  parseFile d path := (d, parse path (d.read path))

theorem Provider.dependsOnFile_reading (parse : Path → Except IoError Bytes → Attempt) :
    (reading parse).DependsOnFile parse :=
  fun _ _ => rfl

/-- A machine whose device refuses nothing. -/
def Machine.willing : Machine := ⟨2, none, fun _ _ => none, List.flatten, fun _ _ => ""⟩

theorem Machine.fair_willing : willing.Fair := Pool.interleaves_flatten

/-- A script that declares a signal. -/
def Script.declaring : Script where
  source := "signal hit"
  root := .node ⟨"source", true, false, false, false, none, 0, 10, 0⟩
    [.node ⟨"signal_statement", true, false, false, false, none, 0, 10, 0⟩
      [.node ⟨"name", true, false, false, false, some "name", 7, 10, 0⟩ []]]

/-! ### Opening a session -/

namespace Session

open Disk Scan Pool Project

theorem exists_open {d : Disk} {root r : Path} (h : resolveRoot d root = .ok r)
    (o : SessionOptions) : ∃ s, Session.open d root o = .ok s := by
  unfold «open»
  rw [h]
  exact ⟨_, rfl⟩

theorem root_of_open {d : Disk} {root : Path} {o : SessionOptions} {s : Session}
    (h : Session.open d root o = .ok s) : resolveRoot d root = .ok s.root ∧ s.options = o := by
  unfold «open» at h
  split at h
  · cases h
  · next r hr =>
    cases h
    exact ⟨hr, rfl⟩

theorem root_eq_of_open {d : Disk} {root r : Path} {o : SessionOptions} {s : Session}
    (h : Session.open d root o = .ok s) (hr : resolveRoot d root = .ok r) : s.root = r :=
  Except.ok.inj ((root_of_open h).1.symm.trans hr)

theorem state_of_open {d : Disk} {root : Path} {o : SessionOptions} {s : Session}
    (h : Session.open d root o = .ok s) :
    (s.ledger, s.table) = if o.persist then restore d s.root else (.empty, .empty) := by
  unfold «open» at h
  split at h
  · cases h
  · cases h
    rfl

theorem keyed_of_open {d : Disk} {root : Path} {o : SessionOptions} {s : Session}
    (h : Session.open d root o = .ok s) : Keyed s.table := by
  have ht : s.table = _ := congrArg Prod.snd (state_of_open h)
  rw [ht]
  split
  · exact keyed_restored
  · intro k f hk
    cases hk

theorem schemaVersion_of_open {d : Disk} {root : Path} {o : SessionOptions} {s : Session}
    (h : Session.open d root o = .ok s) : s.ledger.schemaVersion = Graph.schema := by
  have hl : s.ledger = _ := congrArg Prod.fst (state_of_open h)
  rw [hl]
  split
  · cases hload : Store.load? d s.root with
    | none =>
      rw [restore_none hload]
      rfl
    | some g =>
      rw [ledger_restored hload]
      rfl
  · rfl

/-- A session that starts with an entry in its ledger has restored what was stored. -/
theorem restored_of_open {d : Disk} {root : Path} {o : SessionOptions} {s : Session} {q : Path}
    {e : LedgerEntry} (h : Session.open d root o = .ok s) (he : s.ledger.get? q = some e) :
    ∃ g, Store.load? d s.root = some g ∧ s.ledger = storedLedger d s.root ∧
      s.table = (restore d s.root).2 := by
  have hl : s.ledger = _ := congrArg Prod.fst (state_of_open h)
  have ht : s.table = _ := congrArg Prod.snd (state_of_open h)
  split at hl
  · next hpersist =>
    rw [if_pos hpersist] at ht
    cases hload : Store.load? d s.root with
    | none =>
      rw [hl, restore_none hload, Ledger.get?_clear] at he
      cases he
    | some g => exact ⟨g, rfl, hl.trans (ledger_restored hload), ht⟩
  · rw [hl] at he
    cases he

/-- A new session can analyse a project that nothing keeps it from storing. -/
theorem exists_first_analysis {d : Disk} {loc : Location} {es : List (Bytes × Item)} {p : Provider}
    {parse : Path → Except IoError Bytes → Attempt} {m : Machine} (h : Project d loc es)
    (hresolve : resolveRoot d (pathOf loc) = .ok (pathOf loc)) (hp : p.DependsOnFile parse)
    (hinit : p.init = .ok ()) (hm : m.Fair) (hrefusal : ∀ path step, m.refusal path step = none)
    (hstore : d.Ready loc ∧ Storable d loc) (o : SessionOptions) (mode : ScanMode) :
    ∃ s a, Session.open d (pathOf loc) o = .ok s ∧ (s.analyze m p d mode).result = .ok a := by
  obtain ⟨s, hs⟩ := exists_open hresolve o
  have hroot : s.root = pathOf loc := root_eq_of_open hs hresolve
  obtain ⟨a, ha⟩ := h.exists_analysis hm hroot hresolve hinit (hp.fixed fun _ _ => rfl)
    fun _ s' g hs' => persist_ok hstore.1 h.isName hs' hstore.2 hrefusal g
  exact ⟨s, a, hs, ha⟩

end Session

end SignalAtlas
