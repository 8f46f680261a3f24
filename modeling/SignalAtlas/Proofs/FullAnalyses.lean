import Mathlib.Tactic
import SignalAtlas.Proofs.Collisions
import SignalAtlas.Proofs.Upkeep

/-!
# Full analyses

A full analysis does not depend on what is stored. Two of them may still differ in what no program
decides: the order in which the messages of the workers arrive, and the wording of a crash of a
worker. So two runs are compared, each with a machine of its own.

* `Scan.parse_perm`, `Scan.resultOn_unworded`: the files of a scan, whatever the order of arrival,
  and what of them depends on the wording of crashes;
* `FullRun` is a full analysis in a session that was just opened;
* `full_analysis_ignores_stored_state` compares two of them.
-/

namespace SignalAtlas

open Disk

/-! ### The wording of crashes -/

/-- A dropped file without the wording of a crash. -/
def FileError.unworded (e : FileError) : FileError :=
  if e.kind = .workerCrashed then { e with message := "" } else e

theorem FileError.relativePath_unworded (e : FileError) :
    e.unworded.relativePath = e.relativePath := by
  unfold unworded
  split <;> rfl

namespace Pool

variable {outcome : Job → Except Crash Message} {js : List Job}

/-- A message without the wording of a crash. -/
def Message.unworded : Message → Message
  | .parsed f => .parsed f
  | .failed e => .failed e.unworded

theorem parsed_unworded (l : List Message) :
    (ofMessages (l.map Message.unworded)).parsed = (ofMessages l).parsed := by
  show (l.map Message.unworded).filterMap Message.parsed? = l.filterMap Message.parsed?
  rw [List.filterMap_map]
  exact List.filterMap_congr fun m _ => by cases m <;> rfl

theorem errors_unworded (l : List Message) :
    (ofMessages (l.map Message.unworded)).errors =
      (ofMessages l).errors.map FileError.unworded := by
  show (l.map Message.unworded).filterMap Message.failed? =
    (l.filterMap Message.failed?).map FileError.unworded
  rw [List.filterMap_map, List.map_filterMap]
  exact List.filterMap_congr fun m _ => by cases m <;> rfl

theorem verdicts_unworded (word word' : Crash → String) :
    (verdicts word outcome js).map Message.unworded =
      (verdicts word' outcome js).map Message.unworded := by
  induction js with
  | nil => rfl
  | cons j js ih =>
    unfold verdicts
    cases outcome j with
    | ok m => rw [List.map_cons, List.map_cons, ih]
    | error c =>
      rw [List.map_map, List.map_map]
      rfl

theorem allVerdicts_unworded (outcome : Job → Except Crash Message) (js : List Job)
    (text text' : CrashText) (workers : Nat) :
    (allVerdicts text outcome workers js).map Message.unworded =
      (allVerdicts text' outcome workers js).map Message.unworded := by
  unfold allVerdicts chunkVerdicts
  rw [List.map_flatMap, List.map_flatMap]
  exact List.flatMap_congr fun _ _ => verdicts_unworded _ _

end Pool

namespace Scan

open Pool

variable {p : Provider} {js : List Job} {outcome : Job → Except Crash Message} {C : Disk → Prop}
  {d d₁ d₂ : Disk} {m m₁ m₂ : Machine} {o : ScanOptions}

/-- Apart from the wording of crashes the result of jobs depends on the number of workers only. -/
theorem resultOn_unworded (outcome : Job → Except Crash Message)
    (hw : workers m₁ o js.length = workers m₂ o js.length) :
    (resultOn m₁ o outcome js).parsed = (resultOn m₂ o outcome js).parsed ∧
      (resultOn m₁ o outcome js).errors.map FileError.unworded =
        (resultOn m₂ o outcome js).errors.map FileError.unworded := by
  have hsort : ∀ l : List FileError,
      (l.mergeSort fun a b => a.relativePath ≤ b.relativePath).map FileError.unworded =
        (l.map FileError.unworded).mergeSort fun a b => a.relativePath ≤ b.relativePath := by
    refine fun l => List.map_mergeSort fun a _ b _ => ?_
    rw [a.relativePath_unworded, b.relativePath_unworded]
  have hall := allVerdicts_unworded outcome js m₁.crashText m₂.crashText (workers m₂ o js.length)
  unfold resultOn
  split
  · exact ⟨rfl, rfl⟩
  · unfold PoolResult.sorted
    rw [hw, hsort, hsort, ← errors_unworded, ← errors_unworded, hall]
    refine ⟨?_, rfl⟩
    rw [← parsed_unworded, hall, parsed_unworded]

/-- Whatever the order in which messages arrive, the files are those of the result. -/
theorem parse_perm (h : Fixed p js outcome C) (hd : C d) (hm : m.Fair) (hk : (js.map key).Nodup) :
    (parse m p o d js).2.1.parsed.Perm (resultOn m o outcome js).parsed ∧
      (parse m p o d js).2.1.errors.Perm (resultOn m o outcome js).errors := by
  unfold parse resultOn
  split
  · rw [← (serialMessages_eq h hd).2]
    exact ⟨.rfl, .rfl⟩
  · have hf : (chunksFor (workers m o js.length) js).flatten = js := flatten_chunks _ js
    have ht := (transcripts_eq (by rw [hf]; exact h) hd).2
    have harr := (hm ((chunksFor (workers m o js.length) js).map fun c => (told outcome c).1)).perm
    rw [← List.flatMap_def] at harr
    have hall := @arrivals_append_lost _ m.crashText _ _ (by rwa [hf])
      (by rw [hf]; exact fun j hj _ => h.job_eq hd hj) harr
    show (collect _ _ _).1.parsed.Perm _ ∧ (collect _ _ _).1.errors.Perm _
    rw [ht, List.map_map, collect_fst]
    exact ⟨
      (List.mergeSort_perm _ _).trans ((hall.filterMap _).trans (List.mergeSort_perm _ _).symm),
      (List.mergeSort_perm _ _).trans ((hall.filterMap _).trans (List.mergeSort_perm _ _).symm)⟩

/-- A result is determined by the outcomes of the jobs, the order in which messages arrive and the
wording of crashes. -/
theorem parse_congr (h₁ : Fixed p js outcome (· = d₁)) (h₂ : Fixed p js outcome (· = d₂))
    (hw : workers m₁ o js.length = workers m₂ o js.length) (harrival : m₁.arrival = m₂.arrival)
    (htext : m₁.crashText = m₂.crashText) :
    (parse m₁ p o d₁ js).2.1 = (parse m₂ p o d₂ js).2.1 := by
  unfold parse
  split
  · rw [parsed_serial, parsed_serial, (serialMessages_eq h₁ rfl).2, (serialMessages_eq h₂ rfl).2]
  · have hf : (chunksFor (workers m₂ o js.length) js).flatten = js := flatten_chunks _ js
    rw [← hf] at h₁ h₂
    have ht₁ := (transcripts_eq h₁ rfl).2
    have ht₂ := (transcripts_eq h₂ rfl).2
    rw [hw, harrival, htext]
    show (collect _ _ _).1 = (collect _ _ _).1
    rw [ht₁, ht₂]

theorem stats_congr {r r' : PoolResult} (hparsed : r.parsed.Perm r'.parsed)
    (herrors : r.errors.length = r'.errors.length) (discovered jobs workers : Nat) :
    stats discovered jobs workers r = stats discovered jobs workers r' := by
  unfold stats
  rw [hparsed.length_eq, herrors, hparsed.foldl_eq' fun _ _ _ _ _ => Nat.add_right_comm _ _ _]

end Scan

/-! ### Projects with any state -/

theorem Item.WellNamed.outside {time : Int} {es : List (Bytes × Item)}
    (h : (Item.folder time es).WellNamed) : (Item.folder time (outside es)).WellNamed := by
  obtain ⟨hnodup, hnames⟩ := wellNamed_folder.1 h
  refine wellNamed_folder.2 ⟨hnodup.sublist (List.filter_sublist.map _), fun e he => ?_⟩
  exact hnames e (List.mem_of_mem_filter he)

/-- A disk has a project at a place: a folder with well named entries, which are `es` besides the
state folder. -/
structure Disk.Houses (d : Disk) (loc : Location) (es : List (Bytes × Item)) : Prop where
  isName : ∀ s ∈ loc, IsName s
  folder : ∃ time es', d.root.at? loc = some (.folder time es') ∧
    (Item.folder time es').WellNamed ∧ outside es' = es

namespace Disk.Houses

open Discovery

variable {d d' : Disk} {loc : Location} {es : List (Bytes × Item)} {r : Path}

/-- A project that is found is at its place. -/
theorem found (h : d.Houses loc es) (hr : Scan.resolveRoot d (pathOf loc) = .ok r) :
    r = pathOf loc ∧ ∃ time es', d.item (pathOf loc) = .ok (.folder time es') ∧
      (Item.folder time es').WellNamed ∧ below true es' = below true es := by
  obtain ⟨time, es', hat, hw, rfl⟩ := h.folder
  obtain ⟨hroot, time', es'', hitem, hat'⟩ := folder_of_resolveRoot h.isName (.of_folder hat) hr
  rw [hat, Option.some_inj, Item.folder.injEq] at hat'
  obtain ⟨rfl, rfl⟩ := hat'
  exact ⟨hroot, time, es', hitem, hw, (below_outside true es').symm⟩

/-- A script is found by its path, unless that is too long. -/
theorem item_script (h : d.Houses loc es) {names : Location} (hm : names ∈ below true es) :
    ∃ b time, (∀ t, (Item.folder t es).at? names = some (.file b time)) ∧
      (∀ s ∈ names, IsName s) ∧
      d.item (pathOf (loc ++ names)) =
        (barrier? (loc ++ names)).elim (.ok (.file b time)) .error := by
  obtain ⟨t, es', hfolder, hw, rfl⟩ := h.folder
  obtain ⟨-, b, time, hat⟩ := (mem_below_iff hw.outside).1 hm
  have hne : names ≠ [] := by
    rintro rfl
    cases hat
  have hnames := hw.outside.isName hat
  have hplace : d.root.at? (loc ++ names) = some (.file b time) := by
    rw [Item.at?_append, hfolder, Option.bind_some]
    exact at?_outside hne hat
  have hall : ∀ s ∈ loc ++ names, IsName s := List.forall_mem_append.2 ⟨h.isName, hnames⟩
  exact ⟨b, time, fun u => (at?_folder_time hne u t).trans hat, hnames,
    item_pathOf (by simp [hne]) hall hplace (Item.notLink_file b time)⟩

/-- Two disks with one project have the same scripts. -/
theorem sameScripts (h : d.Houses loc es) (h' : d'.Houses loc es)
    (hr : Scan.resolveRoot d (pathOf loc) = .ok (pathOf loc))
    (hr' : Scan.resolveRoot d' (pathOf loc) = .ok (pathOf loc)) :
    d.SameScripts d' (pathOf loc) := by
  obtain ⟨-, time, fs, hitem, hw, hbelow⟩ := h.found hr
  obtain ⟨-, time', fs', hitem', hw', hbelow'⟩ := h'.found hr'
  refine ⟨?_, fun q hq => ?_⟩
  · rw [scripts_of_folder hitem, scripts_of_folder hitem', hbelow, hbelow']
  · obtain ⟨names, hm, rfl⟩ := (mem_scripts_iff hitem).1 hq
    rw [hbelow] at hm
    obtain ⟨b, t, hat, hnames, hfile⟩ := h.item_script hm
    obtain ⟨b', t', hat', -, hfile'⟩ := h'.item_script hm
    cases (hat 0).symm.trans (hat' 0)
    rw [pathBelow_pathOf h.isName hnames, hfile, hfile']

end Disk.Houses

/-! ### Two full analyses -/

/-- A full analysis, on some machine, in a session that was just opened on a project which has the
entries `es` besides its state folder. -/
structure FullRun (p : Provider) (loc : Location) (es : List (Bytes × Item)) where
  disk : Disk
  machine : Machine
  start : Path
  options : SessionOptions
  session : Session
  analysis : Analysis
  houses : disk.Houses loc es
  fair : machine.Fair
  resolves : Scan.resolveRoot disk start = .ok (pathOf loc)
  opened : Session.open disk start options = .ok session
  analyzed : (session.analyze machine p disk .full).result = .ok analysis

namespace FullRun

open Scan Pool Discovery

variable {p : Provider} {parse : Path → Except IoError Bytes → Attempt} {loc : Location}
  {es : List (Bytes × Item)} (x y : FullRun p loc es)

/-- The scan of the analysis. -/
def scan : Report :=
  run x.machine p x.options.scan .full x.session.ledger x.disk x.session.root

/-- The jobs of the scan. -/
def jobs : List Job := (x.disk.scripts (pathOf loc)).map (job (pathOf loc))

/-- What came of them. -/
def result : PoolResult := (Scan.parse x.machine p x.options.scan x.disk x.jobs).2.1

theorem root_session : x.session.root = pathOf loc := Session.root_eq_of_open x.opened x.resolves

theorem resolves_again : resolveRoot x.disk (pathOf loc) = .ok (pathOf loc) := by
  obtain ⟨⟨r, hr⟩, -⟩ := Session.resolves_of_analyze_ok x.analyzed
  rw [x.root_session] at hr
  rw [hr, (x.houses.found hr).1]

theorem sameScripts : x.disk.SameScripts y.disk (pathOf loc) :=
  x.houses.sameScripts y.houses x.resolves_again y.resolves_again

theorem jobs_eq : y.jobs = x.jobs := by
  unfold jobs
  rw [(x.sameScripts y).scripts]

/-- The outcomes of the jobs are those on the other disk. -/
theorem fixed (hp : p.DependsOnFile parse) : Fixed p x.jobs (outcomeOn p y.disk) (· = x.disk) := by
  refine hp.fixed fun j hj => ?_
  obtain ⟨q, hq, rfl⟩ := List.mem_map.1 hj
  exact ((x.sameScripts y).item q hq).symm

theorem nodup_key : (x.jobs.map key).Nodup := by
  obtain ⟨-, time, es', hitem, hw, -⟩ := x.houses.found x.resolves_again
  unfold jobs
  rw [List.map_map]
  exact nodup_components_scripts hitem hw

theorem nodup_relativePath (hplain : ∀ names ∈ below true es, ∀ s ∈ names, IsPlain s) :
    (x.jobs.map Job.relativePath).Nodup := by
  obtain ⟨-, time, es', hitem, hw, hbelow⟩ := x.houses.found x.resolves_again
  unfold jobs
  rw [List.map_map]
  exact nodup_relativeTo_scripts hitem hw (by rwa [hbelow])

/-- The counts of the scan. -/
def stats : ScanStats :=
  Scan.stats x.jobs.length x.jobs.length (workers x.machine x.options.scan x.jobs.length) x.result

/-- The outcome of the scan. -/
def outcome : ScanOutcome :=
  ⟨pathOf loc, x.disk.scripts (pathOf loc), x.result.parsed, x.result.errors, x.stats⟩

/-- What the scan found, and what the analysis made of it. -/
theorem analysis_eq :
    x.scan.result = .ok x.outcome ∧
      ∃ now, x.analysis =
        ⟨Graph.ofFiles now (SortedMap.ofList (Session.extracted x.result.parsed)).values,
          x.stats, x.result.errors⟩ := by
  obtain ⟨out, hout, ha⟩ := Session.outcome_of_analyze x.analyzed
  rw [(Session.root_of_open x.opened).2] at hout ha
  have hresolve : resolveRoot x.disk x.session.root = .ok (pathOf loc) := by
    rw [x.root_session]
    exact x.resolves_again
  have heq : out = x.outcome := by
    have hlength : (x.disk.scripts (pathOf loc)).length = x.jobs.length :=
      (List.length_map _).symm
    have heq := outcome_eq_full hresolve hout
    rw [hlength] at heq
    exact heq
  subst heq
  have honce : (answered x.result).Perm x.jobs := parse_once x.fair x.nodup_key
  have htable : (x.session.absorb x.scan.ledger x.outcome).table =
      .ofList (Session.extracted x.result.parsed) := Session.table_absorb_full _ _ _ honce
  unfold scan at htable
  rw [htable] at ha
  exact ⟨hout, _, ha⟩

section Compared

variable {x y} (hp : p.DependsOnFile parse)
  (hprocessors : x.machine.processors = y.machine.processors)
  (hvariable : x.machine.workersVariable = y.machine.workersVariable)
  (hscan : x.options.scan = y.options.scan)

include hscan in
theorem result_eq : y.result = (Scan.parse y.machine p x.options.scan y.disk x.jobs).2.1 := by
  rw [result, x.jobs_eq y, hscan]

include hp hprocessors hvariable hscan

theorem stats_eq : x.stats = y.stats := by
  have hfix : Fixed p x.jobs (outcomeOn p y.disk) (· = y.disk) := x.jobs_eq y ▸ y.fixed y hp
  have hworkers := workers_congr hprocessors hvariable x.options.scan x.jobs.length
  obtain ⟨hparsed, herrors⟩ := resultOn_unworded (outcomeOn p y.disk) hworkers
  obtain ⟨hfiles, hdropped⟩ :=
    parse_perm (o := x.options.scan) (x.fixed y hp) rfl x.fair x.nodup_key
  obtain ⟨hfiles', hdropped'⟩ := parse_perm (o := x.options.scan) hfix rfl y.fair x.nodup_key
  have hlength := congrArg List.length herrors
  rw [List.length_map, List.length_map] at hlength
  unfold stats
  rw [x.jobs_eq y, ← hscan, ← hworkers, result_eq hscan]
  refine stats_congr ?_ ?_ _ _ _
  · exact hfiles.trans (hparsed ▸ hfiles'.symm)
  · exact hdropped.length_eq.trans (hlength.trans hdropped'.length_eq.symm)

theorem outcome_eq (h : x.result = y.result) : x.outcome = y.outcome := by
  unfold outcome
  rw [(x.sameScripts y).scripts, stats_eq hp hprocessors hvariable hscan, h]

/-- What arrives in the same order and is worded alike gives the same result. -/
theorem result_of_arrival (harrival : x.machine.arrival = y.machine.arrival)
    (htext : x.machine.crashText = y.machine.crashText) : x.result = y.result := by
  have hworkers := workers_congr hprocessors hvariable x.options.scan x.jobs.length
  rw [result_eq hscan]
  exact parse_congr (x.fixed y hp) (x.jobs_eq y ▸ y.fixed y hp) hworkers harrival htext

omit hprocessors hvariable in
/-- Scripts with plain names are parsed or dropped in whatever order messages arrive. -/
theorem result_of_plain (hplain : ∀ names ∈ below true es, ∀ s ∈ names, IsPlain s) :
    x.result = resultOn x.machine x.options.scan (outcomeOn p y.disk) x.jobs ∧
      y.result = resultOn y.machine x.options.scan (outcomeOn p y.disk) x.jobs := by
  have hrelative := x.nodup_relativePath hplain
  have hfix : Fixed p x.jobs (outcomeOn p y.disk) (· = y.disk) := x.jobs_eq y ▸ y.fixed y hp
  have hx := (parse_eq (o := x.options.scan) (x.fixed y hp) rfl x.fair x.nodup_key hrelative).2
  have hy := (parse_eq (o := x.options.scan) hfix rfl y.fair x.nodup_key hrelative).2
  exact ⟨congrArg Prod.fst hx, (result_eq hscan).trans (congrArg Prod.fst hy)⟩

end Compared

/-- Two workers share two scripts with plain names, of which the first one crashes its worker: it is
dropped, and the facts of the other one are in the graph. -/
theorem analysis_of_crash (hp : p.DependsOnFile parse)
    (hplain : ∀ names ∈ below true es, ∀ s ∈ names, IsPlain s) {ja jb : Job} {c : Crash}
    {f : ParsedFile} (hjobs : x.jobs = [ja, jb]) (hserial : isSerial x.options.scan 2 = false)
    (hworkers : workers x.machine x.options.scan 2 = 2) (hcrash : outcomeOn p x.disk ja = .error c)
    (hparsed : outcomeOn p x.disk jb = .ok (.parsed f)) :
    x.analysis.errors.map FileError.relativePath = [ja.relativePath] ∧
      x.analysis.graph.shareOf f.relativePath = (f.script.extract f.relativePath).share := by
  let e := crashed (workerMessage x.machine.crashText [ja] c) ja
  have hresult : x.result = ⟨[f], [e]⟩ := by
    have hsorted := (result_of_plain (y := x) hp rfl hplain).1
    rw [hjobs] at hsorted
    rw [hsorted.trans (resultOn_of_crash [] (by simp) hserial hworkers hcrash hparsed)]
    exact congrArg₂ PoolResult.mk (List.mergeSort_singleton f) (List.mergeSort_singleton e)
  obtain ⟨-, now, ha⟩ := x.analysis_eq
  rw [ha, hresult]
  exact ⟨rfl, Session.shareOf_extracted now [] [] (f := f) (by simp)⟩

end FullRun

namespace FullRun

/-- A project at the fixed place can be analysed by a machine whose device refuses nothing. -/
theorem exists_holding {es es' : List (Bytes × Item)}
    {parse : Path → Except IoError Bytes → Attempt} {m : Machine} (hm : m.Fair)
    (hrefusal : ∀ path step, m.refusal path step = none) (hw : (Item.folder 0 es').WellNamed)
    (hnamed : Discovery.Named es) (hes : outside es' = es)
    (hstore : (holding es').Ready ["p"] ∧ Session.Storable (holding es') ["p"])
    (o : SessionOptions) :
    ∃ x : FullRun (.reading parse) ["p"] es, x.disk = holding es' ∧ x.machine = m ∧
      x.start = pathOf ["p"] ∧ x.options = o := by
  have hproject : Project (holding es') ["p"] es' := project_holding (by rwa [hes])
  obtain ⟨s, a, hs, ha⟩ := Session.exists_first_analysis hproject (resolveRoot_holding es')
    (Provider.dependsOnFile_reading parse) rfl hm hrefusal hstore o .full
  exact ⟨⟨holding es', m, pathOf ["p"], o, s, a, ⟨by decide, 0, es', rfl, hw, hes⟩, hm,
    resolveRoot_holding es', hs, ha⟩, rfl, rfl, rfl, rfl⟩

end FullRun

/-- The graph and the ledger that stand beside the scripts of a project are what a session of it
starts from. -/
theorem Session.restored_withState {es : List (Bytes × Item)} {g : SizedGraph} {l : Ledger}
    {o : SessionOptions} {s : Session} (h : es.lookup Store.stateFolder = none)
    (hschema : g.metadata.schemaVersion = Graph.schema) (ho : o.persist = true)
    (hs : Session.open (holding (withState es g.toJson l.toJson)) (pathOf ["p"]) o = .ok s) :
    Store.load? (holding (withState es g.toJson l.toJson)) s.root = some g.toGraph ∧
      s.ledger.entries = l.entries := by
  obtain ⟨hgraph, hledger⟩ := @stores_withState es g.toJson l.toJson h
  have hroot : s.root = pathOf ["p"] := root_eq_of_open hs (resolveRoot_holding _)
  have hload : Store.load? (holding (withState es g.toJson l.toJson)) s.root = some g.toGraph := by
    rw [hroot, Store.load?_of_stores hgraph (by decide), Store.ofBytes?_toJson hschema,
      if_pos g.sized]
  have hstate := congrArg Prod.fst (state_of_open hs)
  simp only [ho, if_true] at hstate
  refine ⟨hload, ?_⟩
  rw [hstate, ledger_restored hload, storedLedger, hroot,
    Ledger.load_of_stores hledger (by decide), Ledger.entries?_toJson]
  rfl

end SignalAtlas
