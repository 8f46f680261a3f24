import Mathlib.Tactic
import SignalAtlas.Proofs.Discoveries
import SignalAtlas.Proofs.Events
import SignalAtlas.Proofs.Traversals

/-!
# Files with one relative path

The facts of a file are kept under its relative path. This is a text, so bytes that are none are
replaced in it, and every backslash has become a slash. Where a name holds a backslash or is no text
two files may have one relative path, and the facts of the later one replace those of the earlier
one without a word.

* `Scan.outcome_eq_full`, `Scan.outcome_full`: a full scan answers every script once, whatever the
  provider does;
* `Disk.nodup_relativeTo_scripts`: scripts with plain names have different relative paths;
* `Session.graph_keeps_the_last_of_each_path` puts this together.
-/

namespace SignalAtlas

/-! ### What a full scan finds -/

theorem Pool.parsed_serial {p : Provider} {d : Disk} {js : List Job} :
    (serial p d js).2.1 = ofMessages (serialMessages p d js).2 :=
  rfl

namespace Scan

variable {m : Machine} {p : Provider} {o : ScanOptions} {d : Disk}

/-- The outcome of a full scan is what came of the jobs of all scripts. -/
theorem outcome_eq_full {l : Ledger} {start root : Path} {out : ScanOutcome}
    (hresolve : resolveRoot d start = .ok root)
    (hout : (run m p o .full l d start).result = .ok out) :
    let js := (d.scripts root).map (job root)
    let r := (parse m p o d js).2.1
    out = ⟨root, d.scripts root, r.parsed, r.errors,
      stats (d.scripts root).length js.length (workers m o js.length) r⟩ := by
  intro js r
  rcases run_cases p .full l d start with ⟨e, -, hfail⟩ | ⟨root', hr, -, hrun⟩
  · rw [hfail] at hout
    cases hout
  · rw [hresolve] at hr
    cases hr
    have hjobs : jobs d .full l root (d.scripts root) = js := jobs_full
    rw [hrun, runAt, hjobs] at hout
    exact (Except.ok.inj hout).symm

/-- A full scan answers every script once. -/
theorem outcome_full {l : Ledger} {start root : Path} {out : ScanOutcome} (hm : m.Fair)
    (hresolve : resolveRoot d start = .ok root)
    (hk : ((d.scripts root).map Path.components).Nodup)
    (hout : (run m p o .full l d start).result = .ok out) :
    out.root = root ∧ out.discovered = d.scripts root ∧
      out.stats.filesDiscovered = out.discovered.length ∧
      (out.files.map ParsedFile.job ++ out.errors.map FileError.job).Perm
        (out.discovered.map (job root)) := by
  have hkeys : (((d.scripts root).map (job root)).map Pool.key).Nodup := by
    rw [List.map_map]
    exact hk
  rw [outcome_eq_full hresolve hout]
  exact ⟨rfl, rfl, rfl, parse_once hm hkeys⟩

end Scan

/-! ### What a full scan keeps -/

namespace Session

variable {m : Machine} {p : Provider} {s : Session} {d : Disk} {mode : ScanMode}

theorem analyze_unpersisted {out : ScanOutcome} (hpersist : s.options.persist = false)
    (hout : (Scan.run m p s.options.scan mode s.ledger d s.root).result = .ok out) :
    (s.analyze m p d mode).result = .ok
      ⟨Graph.ofFiles (Scan.run m p s.options.scan mode s.ledger d s.root).disk.now
        (s.absorb (Scan.run m p s.options.scan mode s.ledger d s.root).ledger out).table.values,
        out.stats, out.errors⟩ := by
  have hoptions : (s.absorb (Scan.run m p s.options.scan mode s.ledger d s.root).ledger
      out).options.persist = false := hpersist
  unfold analyze
  simp only [hout, hoptions, Bool.false_eq_true, if_false]
  rfl

/-- What is kept under a relative path comes from the last file that has it. -/
theorem get?_extracted (before after : List ParsedFile) {f : ParsedFile}
    (hlast : ∀ g ∈ after, g.relativePath ≠ f.relativePath) :
    (SortedMap.ofList (extracted (before ++ f :: after))).get? f.relativePath =
      some (f.script.extract f.relativePath) := by
  have hafter : SortedMap.find? f.relativePath (extracted after).reverse = none := by
    refine Option.eq_none_iff_forall_ne_some.2 fun v hv => ?_
    have hmem := List.mem_reverse.1 (SortedMap.mem_of_find?_eq_some hv)
    obtain ⟨g, hg, he⟩ := List.mem_map.1 hmem
    exact hlast g hg (congrArg Prod.fst he)
  rw [SortedMap.get?_ofList]
  unfold extracted at hafter ⊢
  rw [List.map_append, List.map_cons, List.reverse_append, List.reverse_cons, List.append_assoc,
    SortedMap.find?_append, hafter, Option.none_or, List.singleton_append, SortedMap.find?]
  simp

theorem keyed_extracted (files : List ParsedFile) : Keyed (.ofList (extracted files)) := by
  intro k v hv
  rw [SortedMap.get?_ofList] at hv
  have hmem := List.mem_reverse.1 (SortedMap.mem_of_find?_eq_some hv)
  obtain ⟨f, -, he⟩ := List.mem_map.1 hmem
  cases he
  exact Script.isOf_extract f.script f.relativePath

/-- A graph has the facts of a file if no later one has its relative path. -/
theorem shareOf_extracted (now : UInt64) (before after : List ParsedFile) {f : ParsedFile}
    (hlast : ∀ g ∈ after, g.relativePath ≠ f.relativePath) :
    (Graph.ofFiles now (SortedMap.ofList (extracted (before ++ f :: after))).values).shareOf
      f.relativePath = (f.script.extract f.relativePath).share := by
  rw [(keyed_extracted _).shareOf_ofFiles, get?_extracted before after hlast, Option.getD_some]

theorem shareOf_extracted_of_nodup (now : UInt64) {files : List ParsedFile}
    (hn : (files.map ParsedFile.relativePath).Nodup) {f : ParsedFile} (hf : f ∈ files) :
    (Graph.ofFiles now (SortedMap.ofList (extracted files)).values).shareOf f.relativePath =
      (f.script.extract f.relativePath).share := by
  obtain ⟨before, after, rfl⟩ := List.append_of_mem hf
  refine shareOf_extracted now before after fun g hg heq => ?_
  rw [List.map_append, List.map_cons] at hn
  exact (List.nodup_cons.1 hn.of_append_right).1 (List.mem_map.2 ⟨g, hg, heq⟩)

/-- The files of a graph are counted by their relative paths. -/
theorem length_values_extracted (files : List ParsedFile) :
    (SortedMap.ofList (extracted files)).values.length =
      (files.map ParsedFile.relativePath).toFinset.card := by
  have hkeys : (SortedMap.ofList (extracted files)).keys.toFinset =
      (files.map ParsedFile.relativePath).toFinset := by
    ext k
    rw [List.mem_toFinset, List.mem_toFinset, SortedMap.mem_keys, SortedMap.get?_ofList]
    refine ⟨?_, exists_find?_extracted⟩
    rintro ⟨v, hv⟩
    rw [← keys_extracted]
    exact List.mem_map.2 ⟨_, List.mem_reverse.1 (SortedMap.mem_of_find?_eq_some hv), rfl⟩
  have hnodup : (SortedMap.ofList (extracted files)).keys.Nodup := SortedMap.nodup_keys _
  rw [← hkeys, List.toFinset_card_of_nodup hnodup, SortedMap.values, SortedMap.keys,
    List.length_map, List.length_map]

end Session

/-! ### Relative paths -/

namespace Disk

open Discovery

variable {d : Disk} {root : Path} {time : Int} {es : List (Bytes × Item)}

theorem nodup_components_scripts (h : d.item root = .ok (.folder time es))
    (hw : (Item.folder time es).WellNamed) : ((d.scripts root).map Path.components).Nodup := by
  rw [scripts_of_folder h, ((List.mergeSort_perm _ _).map _).nodup_iff]
  exact nodup_components_below h hw

/-- Scripts with plain names have different relative paths. -/
theorem nodup_relativeTo_scripts (h : d.item root = .ok (.folder time es))
    (hw : (Item.folder time es).WellNamed)
    (hplain : ∀ names ∈ below true es, ∀ s ∈ names, IsPlain s) :
    ((d.scripts root).map fun q => q.relativeTo root).Nodup := by
  refine (nodup_scripts h hw).map_on fun q hq r hr hqr => ?_
  obtain ⟨a, ha, rfl⟩ := (mem_scripts_iff h).1 hq
  obtain ⟨b, hb, rfl⟩ := (mem_scripts_iff h).1 hr
  have hshown : ∀ names ∈ below true es,
      (pathBelow root names).relativeTo root = (joinSlashes names).lossy := by
    intro names hm
    rw [relativeTo_pathBelow h hw hm,
      slashed_lossy (noBackslash_joinSlashes.2 fun s hs => (hplain names hm s hs).noBackslash)]
  obtain ⟨-, _, _, hat⟩ := (mem_below_iff hw).1 ha
  obtain ⟨-, _, _, hat'⟩ := (mem_below_iff hw).1 hb
  obtain ⟨hne, hnames, -⟩ := place_of_file h hw hat
  obtain ⟨hne', hnames', -⟩ := place_of_file h hw hat'
  rw [hshown a ha, hshown b hb] at hqr
  rw [lossy_joinSlashes_inj hnames hnames' hne hne' (fun s hs => (hplain a ha s hs).isText)
    (fun s hs => (hplain b hb s hs).isText) hqr]

end Disk

namespace Session

open Disk Discovery

variable {m : Machine} {p : Provider} {s : Session} {d : Disk} {root : Path} {time : Int}
  {es : List (Bytes × Item)} {a : Analysis}

/-- A full analysis without errors parses every script of the project, and its graph keeps facts by
relative path: of the scripts that share one it has the facts of the last that was parsed, so it
counts relative paths and not scripts. These agree exactly if no two scripts have one relative path,
and then the facts of all of them are there. The relative path of a script is what is shown of its
place, with slashes for backslashes, so scripts whose names are texts without backslashes are never
confused. -/
theorem graph_keeps_the_last_of_each_path (hm : m.Fair)
    (hresolve : Scan.resolveRoot d s.root = .ok root)
    (hitem : d.item root = .ok (.folder time es)) (hw : (Item.folder time es).WellNamed)
    (hok : (s.analyze m p d .full).result = .ok a) (herrors : a.errors = []) :
    let relative := (d.scripts root).map fun q => q.relativeTo root
    (∀ names ∈ below true es,
        (pathBelow root names).relativeTo root = Path.slashed (joinSlashes names).lossy) ∧
      a.stats.filesDiscovered = (d.scripts root).length ∧
      a.graph.metadata.fileCount = relative.toFinset.card ∧
      (a.graph.metadata.fileCount = a.stats.filesDiscovered ↔ relative.Nodup) ∧
      ((∀ names ∈ below true es, ∀ s ∈ names, IsPlain s) → relative.Nodup) ∧
      ∃ out, (Scan.run m p s.options.scan .full s.ledger d s.root).result = .ok out ∧
        (out.files.map ParsedFile.job).Perm ((d.scripts root).map (Scan.job root)) ∧
        (∀ before f after, out.files = before ++ f :: after →
          (∀ g ∈ after, g.relativePath ≠ f.relativePath) →
          a.graph.shareOf f.relativePath = (f.script.extract f.relativePath).share) ∧
        (relative.Nodup → ∀ f ∈ out.files,
          a.graph.shareOf f.relativePath = (f.script.extract f.relativePath).share) := by
  intro relative
  obtain ⟨out, hout, rfl⟩ := outcome_of_analyze hok
  obtain ⟨hroot, hdiscovered, hcount, hfiles⟩ :=
    Scan.outcome_full hm hresolve (nodup_components_scripts hitem hw) hout
  have htable := table_absorb_full s (Scan.run m p s.options.scan .full s.ledger d s.root).ledger
    out (by rw [hroot]; exact hfiles)
  have herrors : out.errors = [] := herrors
  rw [herrors, List.map_nil, List.append_nil] at hfiles
  rw [hdiscovered] at hfiles hcount
  have hrelative : (out.files.map ParsedFile.relativePath).Perm relative := by
    have hperm := hfiles.map Job.relativePath
    rwa [List.map_map, List.map_map] at hperm
  simp only [htable]
  have hfileCount : (SortedMap.ofList (extracted out.files)).values.length =
      relative.toFinset.card := by
    rw [length_values_extracted, List.toFinset_eq_of_perm _ _ hrelative]
  refine ⟨fun names => relativeTo_pathBelow hitem hw, hcount, hfileCount, ?_,
    nodup_relativeTo_scripts hitem hw, out, hout, hfiles, fun before f after he hlast => ?_,
    fun hnodup f hf => shareOf_extracted_of_nodup _ (hrelative.nodup_iff.2 hnodup) hf⟩
  · show (SortedMap.ofList (extracted out.files)).values.length = out.stats.filesDiscovered ↔ _
    rw [hfileCount, hcount, ← List.length_map (fun q : Path => q.relativeTo root)]
    exact Multiset.toFinset_card_eq_card_iff_nodup (m := (relative : Multiset String))
  · rw [he]
    exact shareOf_extracted _ before after hlast

end Session

/-! ### A script with a backslash in its name -/

/-- A script without any facts. -/
def Script.silent : Script :=
  ⟨"", .node ⟨"source", true, false, false, false, none, 0, 0, 0⟩ []⟩

theorem Script.share_silent_ne :
    (silent.extract "a/b.gd").share ≠ (declaring.extract "a/b.gd").share := by
  intro h
  have hhit := congrArg (fun share => (share "hit").1.length) h
  rw [Script.extract, Script.walk_eq, Script.extract, Script.walk_eq] at hhit
  revert hhit
  decide

namespace Disk

/-- A project with a script in a folder and one that is named like its path, with a backslash. -/
def backslashed : List (Bytes × Item) :=
  [("a", .folder 0 [("b.gd", .file [1] 0)]), ("a\\b.gd", .file [2] 0)]

theorem wellNamed_backslashed : (Item.folder 0 backslashed).WellNamed := by decide

theorem item_backslashed :
    (holding backslashed).item (pathOf ["p"]) = .ok (.folder 0 backslashed) := by
  rw [item_pathOf (by simp) (by decide) rfl (Item.notLink_folder _ _)]
  rfl

theorem scripts_backslashed :
    (holding backslashed).scripts (pathOf ["p"]) =
      [pathOf ["p", "a", "b.gd"], pathOf ["p", "a\\b.gd"]] := by
  have hbelow : Discovery.below true backslashed =
      ([["a", "b.gd"], ["a\\b.gd"]] : List Location) := by
    decide +kernel
  have hpaths : ([["a", "b.gd"], ["a\\b.gd"]] : List Location).map
      (Discovery.pathBelow (pathOf ["p"])) =
      [pathOf ["p", "a", "b.gd"], pathOf ["p", "a\\b.gd"]] := by decide +kernel
  rw [scripts_of_folder item_backslashed, hbelow, hpaths]
  exact List.mergeSort_of_pairwise (List.pairwise_pair.2 (by decide +kernel))

theorem item_script_backslashed (names : Location) {b : Bytes} (hn : ∀ s ∈ names, IsName s)
    (h : (Item.folder 0 backslashed).at? names = some (.file b 0))
    (hshort : barrier? (Text.bytes "p" :: names) = none) :
    (holding backslashed).item (pathOf (Text.bytes "p" :: names)) = .ok (.file b 0) := by
  have hall : ∀ s ∈ Text.bytes "p" :: names, IsName s := List.forall_mem_cons.2 ⟨by decide, hn⟩
  rw [item_pathOf (by simp) hall h (Item.notLink_file b 0), hshort]
  rfl

end Disk

/-- A script that holds a single one declares a signal, and any other one has no facts. -/
def Provider.told (_ : Path) (contents : Except IoError Bytes) : Attempt :=
  .parsed (if contents.toOption = some [1] then .declaring else .silent)

namespace Session

open Disk

/-- A session of the project that stores nothing. -/
def overBackslashed : Session := ⟨pathOf ["p"], ⟨{}, false⟩, .empty, .empty⟩

/-- The files that are parsed in the project. -/
def parsedBackslashed : List ParsedFile :=
  [⟨.declaring, pathOf ["p", "a", "b.gd"], "a/b.gd", 1, 0⟩,
    ⟨.silent, pathOf ["p", "a\\b.gd"], "a/b.gd", 1, 0⟩]

theorem jobs_backslashed :
    ((holding backslashed).scripts (pathOf ["p"])).map (Scan.job (pathOf ["p"])) =
      parsedBackslashed.map ParsedFile.job := by
  have hrelative : (pathOf ["p", "a", "b.gd"]).relativeTo (pathOf ["p"]) = "a/b.gd" ∧
      (pathOf ["p", "a\\b.gd"]).relativeTo (pathOf ["p"]) = "a/b.gd" := by decide +kernel
  rw [scripts_backslashed, List.map_cons, List.map_singleton, Scan.job, Scan.job, hrelative.1,
    hrelative.2]
  rfl

theorem outcomeOn_backslashed : ∀ f ∈ parsedBackslashed,
    Pool.outcomeOn (.reading Provider.told) (holding backslashed) f.job = .ok (.parsed f) := by
  have hp := Provider.dependsOnFile_reading Provider.told
  refine List.forall_mem_cons.2 ⟨?_, List.forall_mem_singleton.2 ?_⟩
  · have hitem := item_script_backslashed ["a", "b.gd"] (by decide) rfl (by decide)
    refine hp.outcomeOn_of_parse (j := ⟨pathOf ["p", "a", "b.gd"], "a/b.gd"⟩) hitem ?_
    rw [Disk.read, hitem]
    rfl
  · have hitem := item_script_backslashed ["a\\b.gd"] (by decide) rfl (by decide)
    refine hp.outcomeOn_of_parse (j := ⟨pathOf ["p", "a\\b.gd"], "a/b.gd"⟩) hitem ?_
    rw [Disk.read, hitem]
    rfl

theorem serialMessages_backslashed :
    (Pool.serialMessages (.reading Provider.told) (holding backslashed)
      (parsedBackslashed.map ParsedFile.job)).2 = parsedBackslashed.map .parsed := by
  have hp := Provider.dependsOnFile_reading Provider.told
  rw [(Pool.serialMessages_eq (hp.fixed fun _ _ => rfl) rfl).2, List.map_map]
  refine List.map_congr_left fun f hf => ?_
  rw [Function.comp_apply, Pool.ownMessage, outcomeOn_backslashed f hf]

/-- Both scripts of the project are parsed. -/
theorem run_backslashed (m : Machine) :
    ∃ out, (Scan.run m (.reading Provider.told) {} .full .empty (holding backslashed)
        (pathOf ["p"])).result = .ok out ∧
      out.discovered.map (Scan.job out.root) = parsedBackslashed.map ParsedFile.job ∧
      out.files = parsedBackslashed ∧ out.errors = [] ∧ out.stats.filesDiscovered = 2 := by
  have hjobs : Scan.jobs (holding backslashed) .full .empty (pathOf ["p"])
      ((holding backslashed).scripts (pathOf ["p"])) = parsedBackslashed.map ParsedFile.job :=
    Scan.jobs_full.trans jobs_backslashed
  have hparse : (Scan.parse m (.reading Provider.told) {} (holding backslashed)
      (parsedBackslashed.map ParsedFile.job)).2.1 = ⟨parsedBackslashed, []⟩ := by
    rw [Scan.parse, if_pos (by rfl), Pool.parsed_serial, serialMessages_backslashed]
    rfl
  rw [← hjobs] at hparse
  rcases hresult : Scan.parse m (.reading Provider.told) {} (holding backslashed)
      (Scan.jobs (holding backslashed) .full .empty (pathOf ["p"])
        ((holding backslashed).scripts (pathOf ["p"]))) with ⟨d', res, done⟩
  rw [hresult] at hparse
  have hout := congrArg Scan.Report.result
    ((Scan.run_holding backslashed rfl).trans (Scan.runAt_eq hresult))
  refine ⟨_, hout, jobs_backslashed, congrArg PoolResult.parsed hparse,
    congrArg PoolResult.errors hparse, ?_⟩
  show ((holding backslashed).scripts (pathOf ["p"])).length = 2
  rw [scripts_backslashed]
  rfl

/-- Of two scripts with one relative path the graph counts one. -/
theorem graph_keeps_the_last_of_two_scripts :
    let m := Machine.willing
    let d := holding backslashed
    let root := pathOf ["p"]
    m.Fair ∧ Scan.resolveRoot d overBackslashed.root = .ok root ∧
      d.item root = .ok (.folder 0 backslashed) ∧ (Item.folder 0 backslashed).WellNamed ∧
      ∃ a, (overBackslashed.analyze m (.reading Provider.told) d .full).result = .ok a ∧
        a.errors = [] ∧ a.graph.metadata.fileCount = 1 := by
  intro m d root
  have hm : m.Fair := Machine.fair_willing
  have hresolve : Scan.resolveRoot d overBackslashed.root = .ok root := resolveRoot_holding _
  obtain ⟨out, hout, -, -, herrors, -⟩ := run_backslashed m
  have hok := analyze_unpersisted (s := overBackslashed) rfl hout
  obtain ⟨-, -, hcount, -⟩ := graph_keeps_the_last_of_each_path hm hresolve item_backslashed
    wellNamed_backslashed hok herrors
  refine ⟨hm, hresolve, item_backslashed, wellNamed_backslashed, _, hok, herrors, hcount.trans ?_⟩
  have hrelative := congrArg (List.map Job.relativePath) jobs_backslashed
  rw [List.map_map, List.map_map] at hrelative
  exact congrArg (fun l : List String => l.toFinset.card) hrelative

/-- Two scripts of a project are found and parsed without an error, but they have one relative path:
the graph counts one file, and the signal that the first of them declares is not in it. Different
names that are no texts give one relative path as well. -/
theorem backslash_hides_a_script :
    let m := Machine.willing
    let first : ParsedFile := ⟨.declaring, pathOf ["p", "a", "b.gd"], "a/b.gd", 1, 0⟩
    let scan := Scan.run m (.reading Provider.told) {} .full .empty (holding backslashed)
      (pathOf ["p"])
    ∃ out a, scan.result = .ok out ∧ first ∈ out.files ∧
      (overBackslashed.analyze m (.reading Provider.told) (holding backslashed) .full).result =
        .ok a ∧
      a.errors = [] ∧ a.stats.filesDiscovered = 2 ∧ a.graph.metadata.fileCount = 1 ∧
      a.graph.shareOf first.relativePath ≠ (first.script.extract first.relativePath).share ∧
      (pathOf ["p", 0xFE :: ".gd"]).relativeTo (pathOf ["p"]) =
        (pathOf ["p", 0xFF :: ".gd"]).relativeTo (pathOf ["p"]) := by
  intro m first scan
  obtain ⟨out, hout, hjobs, hfiles, herrors, hcount⟩ := run_backslashed m
  have hok := analyze_unpersisted (s := overBackslashed) rfl hout
  have htable := table_absorb_full overBackslashed scan.ledger out
    (by rw [hjobs, hfiles, herrors, List.map_nil, List.append_nil])
  rw [hfiles] at htable
  refine ⟨out, _, hout, by rw [hfiles]; exact List.mem_cons_self, hok, herrors, hcount, ?_, ?_,
    by decide +kernel⟩
  · show (absorb overBackslashed scan.ledger out).table.values.length = 1
    rw [htable, length_values_extracted]
    rfl
  · -- what is kept under the path is from the second script, which has no facts
    have hkept := shareOf_extracted scan.disk.now [first] []
      (f := ⟨.silent, pathOf ["p", "a\\b.gd"], "a/b.gd", 1, 0⟩) (by simp)
    show (Graph.ofFiles _ (absorb overBackslashed scan.ledger out).table.values).shareOf _ ≠ _
    rw [htable]
    exact fun h => Script.share_silent_ne (hkept.symm.trans h)

end Session

end SignalAtlas
