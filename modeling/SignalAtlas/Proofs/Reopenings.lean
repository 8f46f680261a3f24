import Mathlib.Tactic
import SignalAtlas.Proofs.Increments
import SignalAtlas.Proofs.Rescans

/-!
# Sessions after failures to store

A session stores its graph first and its ledger second. If the second step fails, the next session
finds a new graph beside an old ledger, and what that ledger lets pass need not be what the graph
has facts of.

* `repeats_stored_graph`: of a file that its ledger lets pass, a session that was just opened says
  what the stored graph says;
* `reopened_analysis_equals_full`: so its incremental analysis is as good as a full one, whatever
  went wrong before, if the stored graph has the present facts of those files (`Setting.Covers`),
  and if no file crashes the parser, only then;
* `file_moved_back_is_missed`: otherwise a file can be missed that a full analysis finds.

`Interruption` is the history behind the latter: an analysis stores its graph, but not its ledger.
-/

namespace SignalAtlas

open Disk

namespace Session

variable {d : Disk} {root : Path} {o : SessionOptions} {s : Session}

/-- A session that was just opened knows of a file in its ledger what the stored graph says of
it. -/
theorem shareOf_restored {e : LedgerEntry} {q : Path} (h : Session.open d root o = .ok s)
    (he : s.ledger.get? q = some e) :
    ∃ g, Store.load? d s.root = some g ∧
      ∀ k, ((s.table.get? k).getD (.empty k)).share = g.shareOf k := by
  obtain ⟨g, hload, -, htable⟩ := restored_of_open h he
  refine ⟨g, hload, fun k => ?_⟩
  rw [htable, get?_restored hload]
  unfold Graph.shareOf
  cases g.factsByFile.get? k with
  | some f => rfl
  | none => split <;> rfl

end Session

/-- Of a file that its ledger lets pass, a session that was just opened says what the stored graph
says. -/
theorem repeats_stored_graph {loc : Location} {d d' : Disk} {m : Machine} {p : Provider}
    {root q : Path} {o : SessionOptions} {s : Session} {a : Analysis}
    (hopen : Session.open d root o = .ok s) (hroot : s.root = pathOf loc) (hd' : d'.Tidy loc)
    (hm : m.Fair) (hp : p.ReadsOnly) (hok : (s.analyze m p d' .incremental).result = .ok a)
    (hq : q ∈ d'.scripts (pathOf loc)) (hfresh : s.ledger.isStale d' q = false) :
    ∃ g, Store.load? d (pathOf loc) = some g ∧
      a.graph.shareOf (q.relativeTo (pathOf loc)) = g.shareOf (q.relativeTo (pathOf loc)) := by
  obtain ⟨e, -, he, -⟩ := Ledger.isStale_eq_false_iff.1 hfresh
  obtain ⟨g, hload, hshare⟩ := Session.shareOf_restored hopen he
  obtain ⟨_, _, _, hscan⟩ := Session.scans_of_ok hd' hroot hm hp hok
  refine ⟨g, hroot ▸ hload, ?_⟩
  rw [hscan.result_ok hok, (hscan.keyed (Session.keyed_of_open hopen)).shareOf_ofFiles,
    (hscan.kept_of_fresh hq hfresh).1, hshare]

/-! ### What the stored graph has to cover -/

namespace Setting

variable {S : Setting} {d d' : Disk} {root : Path} {o : SessionOptions} {s : Session} {m : Machine}
  {p : Provider} {a : Analysis} {es : List (Bytes × Item)}

/-- A graph has the present facts of all scripts that a ledger lets pass. -/
def Covers (S : Setting) (d : Disk) (l : Ledger) (g : Graph) : Prop :=
  ∀ q ∈ d.scripts (pathOf S.loc), l.isStale d q = false →
    ∃ sc, S.parse q (d.read q) = .parsed sc ∧
      g.shareOf (q.relativeTo (pathOf S.loc)) = (sc.extract (q.relativeTo (pathOf S.loc))).share

/-- A session that was just opened holds the present facts of what its ledger lets pass exactly if
the stored graph does. -/
theorem current_iff_covers (hopen : Session.open d root o = .ok s) (hroot : s.root = pathOf S.loc)
    (hproject : Project d' S.loc es) :
    S.Current d' s.ledger s.table ↔
      ∀ g, Store.load? d (pathOf S.loc) = some g → S.Covers d' s.ledger g := by
  -- the table has an entry of what the ledger lists, with the share that the graph has
  have hentry : ∀ q ∈ d'.scripts (pathOf S.loc), s.ledger.isStale d' q = false →
      ∃ g f, Store.load? d (pathOf S.loc) = some g ∧
        s.table.get? (q.relativeTo (pathOf S.loc)) = some f ∧
        f.share = g.shareOf (q.relativeTo (pathOf S.loc)) := by
    intro q hq hfresh
    obtain ⟨e, -, he, -⟩ := Ledger.isStale_eq_false_iff.1 hfresh
    obtain ⟨g, hload, hshare⟩ := Session.shareOf_restored hopen he
    obtain ⟨names, hnames, rfl⟩ := hproject.script_of_mem hq
    obtain ⟨f, hf⟩ := Session.lists_of_open hopen S.isName S.isText hroot names hnames e he
    rw [← hnames.relativeTo S.isName] at hf
    refine ⟨g, f, hroot ▸ hload, hf, ?_⟩
    rw [← hshare, hf, Option.getD_some]
  constructor
  · intro h g hload q hq hfresh
    obtain ⟨g', f, hload', hf, hshare⟩ := hentry q hq hfresh
    cases hload.symm.trans hload'
    obtain ⟨sc, hparse, hfacts⟩ := h q hq hfresh
    rw [hf, Option.map_some, Option.some_inj] at hfacts
    exact ⟨sc, hparse, hshare.symm.trans hfacts⟩
  · intro h q hq hfresh
    obtain ⟨g, f, hload, hf, hshare⟩ := hentry q hq hfresh
    obtain ⟨sc, hparse, hfacts⟩ := h g hload q hq hfresh
    refine ⟨sc, hparse, ?_⟩
    rw [hf, Option.map_some, hshare, hfacts]

/-- A scan without crashes drops nothing that can be parsed. -/
theorem undropped_of_parsed {mode : ScanMode} {r : PoolResult} {st : ScanStats} {q : Path}
    {f : ParsedFile} (h : s.Scans m p d mode S.loc es r st) (hp : p.DependsOnFile S.parse)
    (hcrash : ∀ q ∈ d.scripts (pathOf S.loc), ∀ c, S.parse q (d.read q) ≠ .crashed c)
    (hown : Pool.outcomeOn p d (Scan.job (pathOf S.loc) q) = .ok (.parsed f)) :
    ∀ e ∈ r.errors, e.path ≠ q := by
  rintro e he rfl
  obtain ⟨q, -, hjob⟩ :=
    Project.job_mem_scripts h.answers (List.mem_append_right _ (List.mem_map.2 ⟨e, he, rfl⟩))
  obtain rfl : q = e.path := congrArg Job.path hjob
  exact h.not_loses hp hcrash ⟨e, he, rfl, f, hjob ▸ hown⟩

/-- What a full scan leaves no scan without crashes drops. -/
theorem remaining_subset {s' : Session} {m' : Machine} {mode : ScanMode}
    {es' : List (Bytes × Item)} {r r' : PoolResult} {st st' : ScanStats}
    (h : s.Scans m p d mode S.loc es r st) (h' : s'.Scans m' p d .full S.loc es' r' st')
    (hp : p.DependsOnFile S.parse)
    (hcrash : ∀ q ∈ d.scripts (pathOf S.loc), ∀ c, S.parse q (d.read q) ≠ .crashed c) :
    Session.remaining d (pathOf S.loc) r'.errors ⊆
      Session.remaining d (pathOf S.loc) r.errors := by
  intro q hq
  obtain ⟨hscript, hundropped⟩ := Session.mem_remaining.1 hq
  refine Session.mem_remaining.2 ⟨hscript, ?_⟩
  cases stands_of_scans h' hp (.inl rfl) hscript with
  | shown f own => exact undropped_of_parsed h hp hcrash own
  | dropped e mem job => exact absurd (congrArg Job.path job) (hundropped e mem)

/-- If no script crashes the parser, a session whose incremental analysis is as good as a full one
had the present facts of whatever its ledger let pass. -/
theorem EqualsFull.current (h : S.EqualsFull d p a) (ho : s.InOrder S.loc) (hd : S.Settled d)
    (hm : m.Fair) (hp : p.DependsOnFile S.parse)
    (hcrash : ∀ q ∈ d.scripts (pathOf S.loc), ∀ c, S.parse q (d.read q) ≠ .crashed c)
    (hok : (s.analyze m p d .incremental).result = .ok a) : S.Current d s.ledger s.table := by
  obtain ⟨s', full, hopen, hfull, -, hsame⟩ := h {} .willing Machine.fair_willing
  replace hsame := hsame (.inl hcrash)
  obtain ⟨⟨root, hresolve⟩, -⟩ := Session.resolves_of_analyze_ok hok
  rw [ho.root] at hresolve
  obtain ⟨rfl, -⟩ := hd.tidy.project hresolve
  have hroot' := Session.root_eq_of_open hopen hresolve
  have hlists' := Session.lists_of_open hopen S.isName S.isText hroot'
  obtain ⟨_, r, _, hscan⟩ := Session.scans_of_ok hd.tidy ho.root hm hp.readsOnly hok
  obtain ⟨_, r', _, hscan'⟩ :=
    Session.scans_of_ok hd.tidy hroot' Machine.fair_willing hp.readsOnly hfull
  -- as many files are left as in the full analysis, so the same ones
  have hleft : (Session.remaining d (pathOf S.loc) r'.errors).Perm
      (Session.remaining d (pathOf S.loc) r.errors) := by
    have hcount := hsame.fileCount
    rw [hscan.result_ok hok, hscan'.result_ok hfull] at hcount
    have hlength := (hscan.length_table ho.root ho.lists).symm.trans
      (hcount.trans (hscan'.length_table hroot' hlists'))
    exact (List.subperm_of_subset (hscan'.project.nodup_scripts.filter _)
      (remaining_subset hscan hscan' hp hcrash)).perm_of_length_le hlength.le
  intro q hq hfresh
  obtain ⟨e, -, he, -⟩ := Ledger.isStale_eq_false_iff.1 hfresh
  obtain ⟨names, hnames, rfl⟩ := hscan.project.script_of_mem hq
  obtain ⟨f, hf⟩ := ho.lists names hnames e he
  have hkept := (hscan.kept_of_fresh hq hfresh).1
  rw [← hnames.relativeTo S.isName] at hf
  rw [hf] at hkept ⊢
  cases stands_of_scans hscan' hp (.inl rfl) hq with
  | shown f' own _ table =>
    obtain ⟨-, -, hparse, -⟩ := hp.parse_of_outcomeOn own
    refine ⟨f'.script, hparse, ?_⟩
    have hshare := hsame.shareOf_eq ((pathOf (S.loc ++ names)).relativeTo (pathOf S.loc))
    rw [hscan.result_ok hok, hscan'.result_ok hfull, (hscan.keyed ho.keyed).shareOf_ofFiles,
      (hscan'.keyed (Session.keyed_of_open hopen)).shareOf_ofFiles, hkept,
      Option.getD_some] at hshare
    obtain ⟨g, hg, hshare'⟩ := Option.map_eq_some_iff.1 table
    rw [hg, Option.getD_some] at hshare
    rw [Option.map_some, hshare, hshare']
  | dropped e' mem job table =>
    have hmem : pathOf (S.loc ++ names) ∈ Session.remaining d (pathOf S.loc) r.errors := by
      cases hscan.standing ho.root ho.lists hq with
      | listed _ _ _ undropped => exact Session.mem_remaining.2 ⟨hq, undropped⟩
      | dropped _ _ _ _ table =>
        rw [Session.root_analyze, ho.root, hkept] at table
        cases table
    obtain ⟨-, hundropped⟩ := Session.mem_remaining.1 (hleft.mem_iff.2 hmem)
    exact absurd (congrArg Job.path job) (hundropped e' mem)

end Setting

/-! ### Interrupted histories -/

/-- A machine whose device refuses to write the ledger. -/
def Machine.refusing : Machine :=
  ⟨2, none, fun path _ => if path = Session.ledgerPath (pathOf ["p"]) then some .isFolder else none,
    List.flatten, fun _ _ => ""⟩

theorem Machine.fair_refusing : refusing.Fair := Pool.interleaves_flatten

theorem Machine.graph_refusing (step : SaveStep) :
    refusing.refusal (Store.graphPath (pathOf ["p"])) step = none := by
  have hne : Store.graphPath (pathOf ["p"]) ≠ Session.ledgerPath (pathOf ["p"]) := by decide
  simp [refusing, hne]

theorem Machine.ledger_refusing :
    refusing.refusal (Session.ledgerPath (pathOf ["p"])) .temporary = some .isFolder := by
  simp [refusing]

/-- A project that was stored and has changed is analysed again, but the ledger cannot be written;
then the scripts change once more, to `final`. -/
structure Interruption extends Upkeep where
  final : List (Bytes × Item)
  finalSettled : (Setting.clocked parse).Settled (holding final)
  finalStateless : final.lookup Store.stateFolder = none

namespace Interruption

variable (I : Interruption)

/-- The session after its second analysis. -/
def second : Live := I.first.analyze .refusing I.provider I.changed .incremental

/-- The disk in the end: a new graph is beside an old ledger. -/
def left : Disk :=
  holding (withState I.final (Graph.ofFiles 7 I.second.session.table.values).toJson
    I.first.session.ledger.toJson)

/-- What happens. -/
def events : List Event :=
  I.toUpkeep.events ++ [.analyze 0 .refusing I.provider .incremental, .change I.left]

theorem settled_left : (Setting.clocked I.parse).Settled I.left :=
  I.finalSettled.of_sameOutside (project_holding (I.finalSettled.named _ _ rfl))
    sameOutside_withState (storable_withState I.finalStateless).1

theorem sameScripts_left : (holding I.final).SameScripts I.left (pathOf ["p"]) :=
  sameScripts_withState (I.finalSettled.named _ _ rfl)

theorem inOrder_first : I.first.session.InOrder ["p"] :=
  (Session.InOrder.of_open I.opened (by decide) (by decide) I.root_session).analyze
    (I.settled _ (by simp)).tidy Machine.fair_willing I.dependsOnFile.readsOnly .full

/-- The second analysis stores its graph, but not its ledger. -/
theorem second_stores :
    let report := I.first.session.analyze .refusing I.provider I.changed .incremental
    (∃ e, report.result = .error (.io e)) ∧
      I.first.session.graphStored report.result = true ∧
      Session.StoresGraph report.disk ["p"] (.ofFiles 7 I.second.session.table.values) ∧
      report.disk.stored ["p"] Ledger.fileName = I.changed.stored ["p"] Ledger.fileName := by
  intro report
  have hs : I.changed.Tidy ["p"] := I.settled_changed.tidy
  obtain ⟨hready, hstorable⟩ : I.changed.Ready ["p"] ∧ Session.Storable I.changed ["p"] :=
    storable_withState (I.stateless I.after (by simp))
  have hpersist : I.first.session.options.persist = true := by rw [I.options_first]
  obtain ⟨es, st, hscan⟩ := Session.scans_of_resolves hs I.root_first Machine.fair_refusing
    I.dependsOnFile.readsOnly .incremental (resolveRoot_holding _) rfl
  obtain ⟨e, he⟩ : ∃ e, report.result = .error (.io e) := by
    have hresult : report.result = _ := congrArg Prod.snd hscan.report
    simp only [Project.report, ← hscan.state] at hresult
    rw [hpersist, if_pos rfl] at hresult
    obtain ⟨e, he⟩ := Session.persist_refused hready (by decide)
      ((Session.root_analyze ..).trans I.root_first) hstorable Machine.graph_refusing
      Machine.ledger_refusing (.ofFiles I.changed.now report.session.table.values)
    rw [he] at hresult
    exact ⟨e, hresult⟩
  have hstored : I.first.session.graphStored report.result = true := by
    unfold Session.graphStored
    rw [he, hpersist]
    rfl
  refine ⟨⟨e, he⟩, hstored, ?_⟩
  cases (Session.analyze_stores hs I.root_first Machine.fair_refusing I.dependsOnFile.readsOnly
    .incremental).2 with
  | nothing unstored => cases hstored.symm.trans unstored
  | graphOnly _ _ _ graph ledger => exact ⟨graph, ledger⟩
  | both _ success => cases he.symm.trans success

theorem run_events :
    (World.start (holding I.before)).run I.events = ⟨I.left, [I.second], I.second.known⟩ := by
  obtain ⟨-, hstored, -⟩ := I.second_stores
  refine (List.foldl_append ..).trans ?_
  rw [show I.toUpkeep.events.foldl World.step _ = _ from I.toUpkeep.run_events]
  show World.mk I.left [I.second] (if I.first.session.graphStored
    (I.first.session.analyze .refusing I.provider I.changed .incremental).result then _ else _) = _
  rw [hstored, if_pos rfl]
  rfl

/-- The history is as assumed. -/
theorem admitted :
    (Setting.clocked I.parse).AdmitsAll (.start (holding I.before))
      (I.events ++ [.open (pathOf ["p"]) {}]) := by
  obtain ⟨-, -, ⟨-, t, hgraph⟩, hledger⟩ := I.second_stores
  refine ⟨fun r hr => Except.ok.inj (hr.symm.trans (resolveRoot_holding _)), ?_⟩
  rw [World.step_open (w := .start (holding I.before)) I.opened]
  refine ⟨⟨Machine.fair_willing, I.dependsOnFile⟩,
    ⟨I.settled_changed, fun _ _ _ => I.stored_of_changed⟩,
    ⟨Machine.fair_refusing, I.dependsOnFile⟩, ⟨I.settled_left, ?_⟩, fun r hr =>
    Except.ok.inj (hr.symm.trans (resolveRoot_holding _)), trivial⟩
  intro name b time hb
  rcases file_of_stored_withState I.finalStateless hb with ⟨rfl, rfl⟩ | ⟨rfl, rfl⟩
  · exact ⟨t, hgraph⟩
  · obtain ⟨-, t', hold⟩ : Session.StoresLedger I.changed ["p"] I.first.session.ledger :=
      (stores_withState (I.stateless I.after (by simp))).2
    exact ⟨t', hledger.trans hold⟩

/-- One of its analyses stores a graph without its ledger. -/
theorem not_ledgersStored : ¬(World.start (holding I.before)).LedgersStored I.events := by
  obtain ⟨⟨e, he⟩, -⟩ := I.second_stores
  rintro ⟨-, h⟩
  rw [World.step_open (w := .start (holding I.before)) I.opened] at h
  obtain ⟨-, -, hio, -⟩ := h
  exact hio e (congrArg some he)

/-- What is stored in the end is the ledger of the first analysis. -/
theorem storedLedger_left : Session.storedLedger I.left (pathOf ["p"]) = I.first.session.ledger :=
  I.inOrder_first.storedLedger_eq (by decide) (stores_withState I.finalStateless).2

theorem load_left (h : (Graph.ofFiles 7 I.second.session.table.values).metadata.fits = true) :
    Store.load? I.left (pathOf ["p"]) = some (.ofFiles 7 I.second.session.table.values) := by
  have hstores : Session.StoresGraph I.left ["p"] (.ofFiles 7 I.second.session.table.values) :=
    (stores_withState I.finalStateless).1
  rw [Store.load?_of_stores hstores (by decide), Store.ofBytes?_toJson rfl, if_pos h]

/-- The first ledger lists nothing that is not in the books. -/
theorem sub_first : I.first.session.ledger.Sub I.first.known := by
  have hs := I.settled I.before (by simp)
  have hnew : ∀ q e, I.session.ledger.get? q ≠ some e := by
    intro q e he
    obtain ⟨g, hload, -⟩ := Session.restored_of_open I.opened he
    rw [I.root_session] at hload
    obtain ⟨b, time, hb, -⟩ := Store.stored_of_load? hs.tidy.isName (hs.linkFree _) hload
    exact (unstored_holding I.before (I.stateless _ (by simp))).2 _ b time hb
  obtain ⟨⟨a, ha⟩, -⟩ := I.first_stores
  obtain ⟨_, _, _, hscan⟩ := Setting.scanned_of_ok ⟨I.session, I.session.ledger.agreeing .empty⟩ hs
    I.root_session Machine.fair_willing I.dependsOnFile ha
  have hsub : I.session.ledger.Sub (I.session.ledger.agreeing .empty) :=
    .agreeing fun q e he => absurd he (hnew q e)
  unfold Upkeep.first
  rw [hscan.session, hscan.known]
  exact hsub.after _ _ _ _ _

/-- The session that is opened in the end can rely on its ledger if whatever that lets pass, it had
let pass in the second analysis. -/
theorem backed {s : Session} (hs : Session.open I.left (pathOf ["p"]) {} = .ok s)
    (hfresh : ∀ q ∈ I.left.scripts (pathOf ["p"]),
      I.first.session.ledger.isStale I.left q = false →
        q ∈ I.changed.scripts (pathOf ["p"]) ∧ I.first.session.ledger.isStale I.changed q = false) :
    (Setting.clocked I.parse).Backed I.left s.ledger I.second.known := by
  intro q hq hpass
  obtain ⟨e, -, he, -⟩ := Ledger.isStale_eq_false_iff.1 hpass
  have hroot : s.root = pathOf ["p"] := Session.root_eq_of_open hs (resolveRoot_holding _)
  obtain ⟨-, -, hledger, -⟩ := Session.restored_of_open hs he
  rw [hroot, I.storedLedger_left] at hledger
  rw [hledger] at hpass he ⊢
  obtain ⟨hq', hpass'⟩ := hfresh q hq hpass
  rcases Setting.analyze_cases I.settled_changed I.root_first Machine.fair_refusing I.dependsOnFile
    .incremental with ⟨-, -, x, hx, -, hio⟩ | ⟨_, _, _, hscan⟩
  · obtain ⟨⟨y, hy⟩, -⟩ := I.second_stores
    cases hy.symm.trans hx
    exact absurd rfl (hio y)
  · have hknown : I.second.known.get? q = I.first.known.get? q := by
      unfold second
      rw [hscan.known]
      exact (hscan.kept_of_fresh hq' hpass').2 _
    rw [hknown, he, I.sub_first.entry q e he]

/-- In the end a session can be opened, and make an analysis. -/
theorem exists_reopened (o : SessionOptions) (mode : ScanMode) :
    ∃ s a, Session.open I.left (pathOf ["p"]) o = .ok s ∧ s.root = pathOf ["p"] ∧
      (s.analyze .willing I.provider I.left mode).result = .ok a := by
  have hresolve : Scan.resolveRoot I.left (pathOf ["p"]) = .ok (pathOf ["p"]) :=
    resolveRoot_holding _
  obtain ⟨s, hs⟩ := Session.exists_open hresolve o
  have hroot : s.root = pathOf ["p"] := Session.root_eq_of_open hs hresolve
  have hstorable : Session.Storable I.left ["p"] := (storable_withState I.finalStateless).2
  obtain ⟨a, ha⟩ := Session.exists_analysis I.settled_left.tidy hroot Machine.fair_willing
    I.dependsOnFile.readsOnly hresolve rfl (fun _ => ⟨hstorable, fun _ _ => rfl⟩) mode
  exact ⟨s, a, hs, hroot, ha⟩

/-- If all files are gone in the second analysis, its table is empty. -/
theorem table_second (h : I.after = []) : I.second.session.table = .empty := by
  obtain ⟨_, _, hscan⟩ := Session.scans_of_resolves I.settled_changed.tidy I.root_first
    Machine.fair_refusing I.dependsOnFile.readsOnly .incremental (resolveRoot_holding _) rfl
  have hscripts : I.changed.scripts (pathOf ["p"]) = [] := by
    rw [I.sameScripts_changed.scripts, h]
    exact scripts_holding (.of_names (by decide) (by decide)) rfl List.Pairwise.nil
  refine SortedMap.ext_get? fun k => ?_
  have hnone : ∀ q ∈ I.changed.scripts (pathOf ["p"]), q.relativeTo (pathOf ["p"]) ≠ k := by
    rw [hscripts]
    exact nofun
  have hstate : I.second.session = _ := hscan.state
  rw [hstate, Project.table_after_of_not_script hscan.answers hnone, SortedMap.get?_empty]

end Interruption

/-! ### Whatever went wrong before -/

/-- In any history, whatever went wrong when states were stored, the incremental analysis of the
next session says of a file that its ledger lets pass what the stored graph says. So it gives what a
full analysis from scratch gives if the stored graph has the present facts of all those files, and
without crashes only then. That is so as long as no analysis stores its graph and then fails to
store its ledger. -/
theorem reopened_analysis_equals_full {S : Setting} {d d' : Disk} {events : List Event}
    {m : Machine} {p : Provider} {root : Path} {o : SessionOptions} {s : Session} {a : Analysis}
    (hd : S.Settled d) (hnew : ∀ name b time, d.stored S.loc name ≠ some (.file b time))
    (hadmits : S.AdmitsAll (.start d) (events ++ [.open root o]))
    (hopen : Session.open ((World.start d).run events).disk root o = .ok s) (hd' : S.Settled d')
    (hm : m.Fair) (hp : p.DependsOnFile S.parse)
    (hok : (s.analyze m p d' .incremental).result = .ok a) :
    let stored := Store.load? ((World.start d).run events).disk (pathOf S.loc)
    (∀ q ∈ d'.scripts (pathOf S.loc), s.ledger.isStale d' q = false →
        ∃ g, stored = some g ∧ a.graph.shareOf (q.relativeTo (pathOf S.loc)) =
          g.shareOf (q.relativeTo (pathOf S.loc))) ∧
      ((∀ g, stored = some g → S.Covers d' s.ledger g) → S.EqualsFull d' p a) ∧
      ((∀ q ∈ d'.scripts (pathOf S.loc), ∀ c, S.parse q (d'.read q) ≠ .crashed c) →
        S.EqualsFull d' p a → ∀ g, stored = some g → S.Covers d' s.ledger g) ∧
      ((World.start d).LedgersStored events → ∀ g, stored = some g → S.Covers d' s.ledger g) := by
  intro stored
  obtain ⟨hbefore, hadmitted⟩ := hadmits.of_concat
  have hsound := (World.sound_start hd hnew).run hbefore
  have hroot : s.root = pathOf S.loc := hadmitted _ (Session.root_of_open hopen).1
  have hkeyed := Session.keyed_of_open hopen
  obtain ⟨⟨_, hresolve⟩, -⟩ := Session.resolves_of_analyze_ok hok
  rw [hroot] at hresolve
  obtain ⟨-, es, hproject⟩ := hd'.tidy.project hresolve
  have hiff := Setting.current_iff_covers (S := S) hopen hroot hproject
  refine ⟨fun q => repeats_stored_graph hopen hroot hd'.tidy hm hp.readsOnly hok, fun hcovers => ?_,
    fun hcrash hequal => ?_, fun hledgers => ?_⟩
  · exact Setting.equalsFull hroot hkeyed hd' hm hp (hiff.2 hcovers) hok
  · exact hiff.1 (hequal.current (.of_open hopen S.isName S.isText hroot) hd' hm hp hcrash hok)
  · -- the ledger lists nothing that is not in the books of the stored graph
    have hmatched := (World.matched_start hnew).run (World.sound_start hd hnew) hbefore hledgers
    let lv : Live := ⟨s, s.ledger.agreeing ((World.start d).run events).known⟩
    have hlv : S.LiveSound lv := ⟨hroot, hkeyed, hsound.vouches_restored hopen hroot⟩
    have hsub : s.ledger.Sub lv.known := .agreeing (hmatched.restored hsound hopen hroot)
    exact hiff.1 (hlv.current hd' hproject hsub.backed)

/-- One of two scripts changes before the ledger cannot be written; the other one is still in it. -/
theorem reopened_analysis_equals_full_after_interruption :
    let parse : Path → Except IoError Bytes → Attempt := fun _ contents =>
      .parsed (if contents.toOption = some [5] then default else .declaring)
    let p := Provider.reading parse
    let S := Setting.clocked parse
    let d := holding [("a.gd", .file [1] 1000000), ("b.gd", .file [5] 5000000)]
    S.Settled d ∧ (∀ name b time, d.stored S.loc name ≠ some (.file b time)) ∧
      ∃ events s a, S.AdmitsAll (.start d) (events ++ [.open (pathOf S.loc) {}]) ∧
        ¬(World.start d).LedgersStored events ∧
        let w := (World.start d).run events
        Session.open w.disk (pathOf S.loc) {} = .ok s ∧ S.Settled w.disk ∧
          Machine.willing.Fair ∧ p.DependsOnFile S.parse ∧
          (s.analyze .willing p w.disk .incremental).result = .ok a ∧
          (∀ g, Store.load? w.disk (pathOf S.loc) = some g → S.Covers w.disk s.ledger g) ∧
          S.EqualsFull w.disk p a := by
  intro parse p S d
  let before : List (Bytes × Item) :=
    [("a.gd", .file [1] 1000000), ("b.gd", .file [5] 5000000)]
  let between : List (Bytes × Item) :=
    [("a.gd", .file [1] 1000000), ("b.gd", .file [6] 6000000)]
  have hbelow : Discovery.below true before = ([["a.gd"], ["b.gd"]] : List Location) := by
    decide +kernel
  have hbelow' : Discovery.below true between = ([["a.gd"], ["b.gd"]] : List Location) := by
    decide +kernel
  have hnew := (unstored_holding before rfl).2
  have hs : S.Settled (holding before) :=
    settled_holding rfl (.of_names (by decide) (by decide)) hbelow (by decide +kernel)
  have hs' : S.Settled (holding between) :=
    settled_holding rfl (.of_names (by decide) (by decide)) hbelow' (by decide +kernel)
  obtain ⟨session, hsession⟩ := Session.exists_open (resolveRoot_holding before) {}
  let I : Interruption := ⟨⟨parse, {}, before, between,
    List.forall_mem_cons.2 ⟨hs, List.forall_mem_singleton.2 hs'⟩,
    List.forall_mem_cons.2 ⟨rfl, List.forall_mem_singleton.2 rfl⟩, session, hsession⟩,
    between, hs', rfl⟩
  obtain ⟨s, a, hopen, hroot, ha⟩ := I.exists_reopened {} .incremental
  -- the files are those of the second analysis
  have hbacked : S.Backed I.left s.ledger I.second.known := by
    refine I.backed hopen fun q hq hfresh => ?_
    have hleft := I.sameScripts_left
    have hchanged : (holding between).SameScripts I.changed (pathOf ["p"]) := I.sameScripts_changed
    rw [hleft.scripts] at hq
    rw [hchanged.scripts, ← hfresh]
    exact ⟨hq, Ledger.isStale_congr ((hchanged.item q hq).trans (hleft.item q hq).symm)⟩
  have hrun : (World.start d).run I.events = _ := I.run_events
  have hsound := (World.sound_start hs hnew).run I.admitted.of_concat.1
  rw [hrun] at hsound
  have hlv : S.LiveSound ⟨s, s.ledger.agreeing I.second.known⟩ :=
    ⟨hroot, Session.keyed_of_open hopen, hsound.vouches_restored hopen hroot⟩
  have hleft : S.Settled I.left := I.settled_left
  obtain ⟨-, es, hproject⟩ := hleft.tidy.project (resolveRoot_holding _)
  have hcovers := (Setting.current_iff_covers (S := S) hopen hroot hproject).1 <|
    hlv.current hleft hproject fun q hq hfresh => by
      obtain ⟨e, -, he, -⟩ := Ledger.isStale_eq_false_iff.1 hfresh
      rw [he]
      exact Ledger.get?_agreeing.2 ⟨he, (hbacked q hq hfresh).trans he⟩
  have hdisk : ((World.start d).run I.events).disk = I.left := congrArg World.disk hrun
  rw [← hdisk] at hopen hleft ha hcovers
  exact ⟨hs, hnew, I.events, s, a, I.admitted, I.not_ledgersStored, hopen, hleft,
    Machine.fair_willing, I.dependsOnFile, ha, hcovers,
    (reopened_analysis_equals_full hs hnew I.admitted hopen hleft Machine.fair_willing
      I.dependsOnFile ha).2.1 hcovers⟩

/-- A script is gone while the ledger cannot be written, and comes back as it was. The next session
lets it pass, but has no facts of it. -/
theorem file_moved_back_is_missed :
    let parse : Path → Except IoError Bytes → Attempt := fun _ _ => .parsed .declaring
    let p := Provider.reading parse
    let S := Setting.clocked parse
    let d := holding [("a.gd", .file [1] 1000000)]
    S.Settled d ∧ (∀ name b time, d.stored S.loc name ≠ some (.file b time)) ∧
      ∃ events s a s' full, S.AdmitsAll (.start d) (events ++ [.open (pathOf S.loc) {}]) ∧
        let w := (World.start d).run events
        Session.open w.disk (pathOf S.loc) {} = .ok s ∧ S.Settled w.disk ∧
          Machine.willing.Fair ∧ p.DependsOnFile S.parse ∧
          (s.analyze .willing p w.disk .incremental).result = .ok a ∧
          Session.open w.disk (pathOf S.loc) ⟨{}, false⟩ = .ok s' ∧
          (s'.analyze .willing p w.disk .full).result = .ok full ∧
          ¬Graph.SameFacts a.graph full.graph := by
  intro parse p S d
  let scripts : List (Bytes × Item) := [("a.gd", .file [1] 1000000)]
  have hbelow : Discovery.below true scripts = ([["a.gd"]] : List Location) := by decide +kernel
  have hnamed : Discovery.Named (outside scripts) := .of_names (by decide) (by decide)
  have hnew := (unstored_holding scripts rfl).2
  have hs : S.Settled (holding scripts) := settled_holding rfl hnamed hbelow (by decide +kernel)
  have hs' : S.Settled (holding []) :=
    settled_holding rfl (.of_names (by decide) (by decide)) rfl rfl
  obtain ⟨session, hsession⟩ := Session.exists_open (resolveRoot_holding scripts) {}
  let I : Interruption := ⟨⟨parse, {}, scripts, [],
    List.forall_mem_cons.2 ⟨hs, List.forall_mem_singleton.2 hs'⟩,
    List.forall_mem_cons.2 ⟨rfl, List.forall_mem_singleton.2 rfl⟩, session, hsession⟩,
    scripts, hs, rfl⟩
  obtain ⟨s, a, hopen, hroot, ha⟩ := I.exists_reopened {} .incremental
  obtain ⟨s', full, hopen', hroot', hfull⟩ := I.exists_reopened ⟨{}, false⟩ .full
  have hm := Machine.fair_willing
  have hp : p.DependsOnFile parse := I.dependsOnFile
  have hleft : I.left.Tidy ["p"] := I.settled_left.tidy
  refine ⟨hs, hnew, I.events, s, a, s', full, I.admitted, ?_⟩
  intro w
  have hdisk : w.disk = I.left := congrArg World.disk I.run_events
  rw [hdisk]
  refine ⟨hopen, I.settled_left, hm, hp, ha, hopen', hfull, fun hsame => ?_⟩
  let q := pathOf ["p", "a.gd"]
  have hscripts : (holding scripts).scripts (pathOf ["p"]) = [q] :=
    scripts_holding hnamed hbelow (List.pairwise_singleton _ _)
  have hunchanged : (holding scripts).SameScripts I.left (pathOf ["p"]) := I.sameScripts_left
  have hq : q ∈ (holding scripts).scripts (pathOf ["p"]) := by rw [hscripts]; simp
  have hq' : q ∈ I.left.scripts (pathOf ["p"]) := by rwa [hunchanged.scripts]
  have hitem : (holding scripts).item q = .ok (.file [1] 1000000) :=
    item_holding rfl (by decide) (by decide)
  have hitem' : I.left.item q = .ok (.file [1] 1000000) := (hunchanged.item q hq).trans hitem
  -- the first analysis lists the file
  obtain ⟨⟨a₁, ha₁⟩, -⟩ := I.first_stores
  obtain ⟨_, _, _, hscan₁⟩ := Session.scans_of_ok hs.tidy I.root_session hm hp.readsOnly ha₁
  obtain ⟨-, hledger₁⟩ := hscan₁.parsed_of_full hp hq hitem rfl fun _ _ _ => nofun
  -- the graph of the second one is empty, and the ledger is still that of the first
  have htable := I.table_second rfl
  have hload := I.load_left (by rw [htable]; decide +kernel)
  have hledger : s.ledger = I.first.session.ledger := by
    have hstate : s.ledger = _ := congrArg Prod.fst (Session.state_of_open hopen)
    rw [hroot, if_pos rfl, Session.ledger_restored hload, I.storedLedger_left] at hstate
    exact hstate
  have hfresh : s.ledger.isStale I.left q = false :=
    Ledger.isStale_eq_false_iff.2
      ⟨_, _, by rw [hledger]; exact hledger₁, by rw [hledger]; rfl, hitem', rfl⟩
  obtain ⟨g, hload', hshare⟩ := repeats_stored_graph hopen hroot hleft hm hp.readsOnly ha hq' hfresh
  cases hload.symm.trans hload'
  -- a full analysis finds its signal
  obtain ⟨_, _, _, hscan⟩ := Session.scans_of_ok hleft hroot' hm hp.readsOnly hfull
  obtain ⟨hfound, -⟩ := hscan.parsed_of_full hp hq' hitem' rfl fun _ _ _ => nofun
  have hfacts := hshare.symm.trans (hsame.shareOf_eq _)
  rw [htable, hscan.result_ok hfull,
    (hscan.keyed (Session.keyed_of_open hopen')).shareOf_ofFiles, hfound,
    Option.getD_some] at hfacts
  have hcount : ((Graph.ofFiles 7 SortedMap.empty.values).shareOf (q.relativeTo (pathOf ["p"]))
      "hit").1.length = ((Script.declaring.extract (q.relativeTo (pathOf ["p"]))).share
      "hit").1.length := congrArg (fun x => x.1.length) (congrFun hfacts "hit")
  exact absurd hcount (by decide +kernel)

end SignalAtlas
