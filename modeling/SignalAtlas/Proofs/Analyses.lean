import Mathlib.Tactic
import SignalAtlas.Proofs.Codecs
import SignalAtlas.Proofs.Sessions

/-!
# Analyses of a tidy project

What an analysis does to a session and to the disk, under the assumptions that all later modules
share: no link leads to the state of the project and the names in it are in order (`Disk.Tidy`), and
the provider reads files only (`Provider.ReadsOnly`). Files may change and fail as they like.

* `Session.scan_cases`: an analysis fails in its scan and changes nothing, or it scans the project
  (`Session.Scans`);
* `Session.Scans.stores`: what it then leaves in the state folder (`Session.StoreEnd`).
-/

namespace SignalAtlas

open Disk

/-- A provider that reads files only. -/
def Provider.ReadsOnly (p : Provider) : Prop := ∀ d path, (p.parseFile d path).1 = d

theorem Provider.DependsOnFile.readsOnly {p : Provider}
    {parse : Path → Except IoError Bytes → Attempt} (h : p.DependsOnFile parse) : p.ReadsOnly :=
  fun d path => by rw [h]

/-- A parsed file has the time of its last change. -/
theorem Pool.modified_of_outcomeOn {p : Provider} {d : Disk} {j : Job} {f : ParsedFile}
    (h : outcomeOn p d j = .ok (.parsed f)) :
    ∃ it, d.item j.path = .ok it ∧ f.mtime = milliseconds it.modified := by
  unfold outcomeOn parseOne at h
  split at h
  · cases h
  · next it hit =>
    split at h
    · cases h
      exact ⟨it, hit, rfl⟩
    · cases h
    · cases h

/-- A file is not stale if its entry was made under the schema in force and at its present time. -/
theorem Ledger.isStale_eq_false_iff {l : Ledger} {d : Disk} {q : Path} :
    l.isStale d q = false ↔ ∃ e it, l.get? q = some e ∧ e.schemaVersion = l.schemaVersion ∧
      d.item q = .ok it ∧ milliseconds it.modified = e.mtime := by
  unfold isStale modifiedMs
  cases l.get? q with
  | none => simp
  | some e =>
    cases d.item q with
    | error x => simp [Except.map]
    | ok it => simp [Except.map]

theorem Ledger.isStale_congr {l : Ledger} {d d' : Disk} {q : Path} (h : d.item q = d'.item q) :
    l.isStale d q = l.isStale d' q := by
  unfold isStale modifiedMs
  rw [h]

/-! ### Tidy projects -/

/-- The names on the way to a project are texts, no link leads to its state, and the names in it are
in order. -/
structure Disk.Tidy (d : Disk) (loc : Location) : Prop where
  isName : ∀ s ∈ loc, IsName s
  isText : ∀ s ∈ loc, s.IsText
  linkFree : ∀ name, d.LinkFree (statePlace loc name)
  named : ∀ time es, d.root.at? loc = some (.folder time es) → Discovery.Named (outside es)

namespace Disk.Tidy

variable {d d' : Disk} {loc : Location} {es : List (Bytes × Item)}

theorem project {root : Path} (h : d.Tidy loc) (hr : Scan.resolveRoot d (pathOf loc) = .ok root) :
    root = pathOf loc ∧ ∃ es, Project d loc es := by
  have hprefix : loc <+: statePlace loc "" := by
    unfold statePlace
    rw [List.append_assoc]
    exact List.prefix_append _ _
  exact Project.of_resolveRoot h.isName h.isText ((h.linkFree "").above hprefix) h.named hr

theorem ready (h : d.Tidy loc) (hp : Project d loc es) : d.Ready loc := by
  obtain ⟨time, -, hat⟩ := hp.folder
  exact .of_linkFree hat h.linkFree

/-- Storing the state leaves a project tidy. -/
theorem of_sameOutside (h : d.Tidy loc) (hp : Project d loc es) (ho : d.SameOutside d' loc)
    (hr : d'.Ready loc) : d'.Tidy loc := by
  refine ⟨h.isName, h.isText, hr.linkFree, fun time' es' hat' => ?_⟩
  obtain ⟨time, -, hat⟩ := hp.folder
  obtain ⟨_, _, hat'', he⟩ := ho time es hat
  rw [hat'] at hat''
  cases hat''
  rw [he]
  exact hp.named

end Disk.Tidy

theorem tidy_holding {es : List (Bytes × Item)} (hready : (holding es).Ready ["p"])
    (hnamed : Discovery.Named (outside es)) : (holding es).Tidy ["p"] := by
  refine ⟨by decide, by decide, hready.linkFree, fun time es' hat => ?_⟩
  cases hat
  exact hnamed

/-! ### Scans of a session -/

/-- A file is lost: it is among the dropped ones although parsing it gives a script. -/
def Scan.Loses (p : Provider) (d : Disk) (errors : List FileError) (q : Path) : Prop :=
  ∃ e ∈ errors, e.path = q ∧ ∃ f, Pool.outcomeOn p d e.job = .ok (.parsed f)

namespace Session

/-- What an analysis that gets past its scan does to a session: the project is found, the scan of
its due files has the result `r` with the counts `st`, the session takes it over, and the state is
stored. -/
structure Scans (s : Session) (m : Machine) (p : Provider) (d : Disk) (mode : ScanMode)
    (loc : Location) (es : List (Bytes × Item)) (r : PoolResult) (st : ScanStats) : Prop where
  project : Project d loc es
  answers : Pool.Answers (Pool.outcomeOn p d) (Project.due d loc mode s.ledger) r
  counts : st = Project.statsOf m s.options.scan d loc (Project.due d loc mode s.ledger) r
  state : (s.analyze m p d mode).session = Project.after d loc s.ledger r st s
  report : ((s.analyze m p d mode).disk, (s.analyze m p d mode).result) =
    Project.report m s d loc r st

variable {s : Session} {m : Machine} {p : Provider} {d : Disk} {mode : ScanMode} {loc : Location}
  {es : List (Bytes × Item)} {r : PoolResult} {st : ScanStats} {a : Analysis}

/-- An analysis scans a project that is found. -/
theorem scans_of_resolves (h : d.Tidy loc) (hroot : s.root = pathOf loc) (hm : m.Fair)
    (hp : p.ReadsOnly) (mode : ScanMode) {root : Path}
    (hresolve : Scan.resolveRoot d (pathOf loc) = .ok root) (hinit : p.init = .ok ()) :
    let r := Scan.resultOn m s.options.scan (Pool.outcomeOn p d) (Project.due d loc mode s.ledger)
    ∃ es st, s.Scans m p d mode loc es r st := by
  intro r
  obtain ⟨rfl, es, hproject⟩ := h.project hresolve
  have hfix : Pool.Fixed p (Project.due d loc mode s.ledger) (Pool.outcomeOn p d) (· = d) :=
    Pool.fixed_outcomeOn (hp d) _
  obtain ⟨hsession, hreport⟩ := hproject.analyze_eq hm hroot hresolve hinit hfix
  have hanswers := Scan.answers_resultOn (m := m) (o := s.options.scan) fun j hj _ =>
    hfix.job_eq rfl hj
  exact ⟨es, _, hproject, hanswers, rfl, hsession, hreport⟩

/-- An analysis fails in its scan and changes nothing, or it scans the project. -/
theorem scan_cases (h : d.Tidy loc) (hroot : s.root = pathOf loc) (hm : m.Fair)
    (hp : p.ReadsOnly) (mode : ScanMode) :
    ((s.analyze m p d mode).session = s ∧ (s.analyze m p d mode).disk = d ∧
        ∃ e, (s.analyze m p d mode).result = .error e ∧ (∀ x, e ≠ .graph x) ∧ ∀ x, e ≠ .io x) ∨
      ∃ es r st, s.Scans m p d mode loc es r st := by
  rcases analyze_cases m p s d mode with
    ⟨hsession, hdisk, e, -, hresult, hgraph, hio⟩ | ⟨⟨root, hresolve⟩, hinit⟩
  · exact .inl ⟨hsession, hdisk, e, hresult, hgraph, hio⟩
  · rw [hroot] at hresolve
    obtain ⟨es, st, hscan⟩ := scans_of_resolves h hroot hm hp mode hresolve hinit
    exact .inr ⟨es, _, st, hscan⟩

theorem scans_of_ok (h : d.Tidy loc) (hroot : s.root = pathOf loc) (hm : m.Fair)
    (hp : p.ReadsOnly) (hok : (s.analyze m p d mode).result = .ok a) :
    ∃ es r st, s.Scans m p d mode loc es r st := by
  rcases scan_cases h hroot hm hp mode with ⟨-, -, e, he, -⟩ | hscan
  · rw [hok] at he
    cases he
  · exact hscan

/-- An analysis of a project that is found has a result, unless its state cannot be stored. -/
theorem exists_analysis (h : d.Tidy loc) (hroot : s.root = pathOf loc) (hm : m.Fair)
    (hp : p.ReadsOnly) (hresolve : Scan.resolveRoot d (pathOf loc) = .ok (pathOf loc))
    (hinit : p.init = .ok ())
    (hstore : s.options.persist = true →
      Storable d loc ∧ ∀ path step, m.refusal path step = none) (mode : ScanMode) :
    ∃ a, (s.analyze m p d mode).result = .ok a := by
  obtain ⟨-, es, hproject⟩ := h.project hresolve
  refine hproject.exists_analysis hm hroot hresolve hinit (Pool.fixed_outcomeOn (hp d) _) ?_
  intro hpersist s' g hs'
  obtain ⟨hstorable, hrefusal⟩ := hstore hpersist
  exact persist_ok (h.ready hproject) h.isName hs' hstorable hrefusal g

namespace Scans

theorem result_ok (h : s.Scans m p d mode loc es r st)
    (hok : (s.analyze m p d mode).result = .ok a) :
    a = ⟨.ofFiles d.now (s.analyze m p d mode).session.table.values, st, r.errors⟩ := by
  have hresult : (s.analyze m p d mode).result = _ := congrArg Prod.snd h.report
  simp only [Project.report, ← h.state] at hresult
  rw [hok] at hresult
  simp only [Except.map] at hresult
  split at hresult
  · cases hresult
  · cases hresult
    rfl

/-- The table goes on listing files under their own paths. -/
theorem keyed (h : s.Scans m p d mode loc es r st) (hk : Keyed s.table) :
    Keyed (s.analyze m p d mode).session.table := by
  rw [h.state]
  intro k f hf
  by_cases hscript : ∃ q ∈ d.scripts (pathOf loc), q.relativeTo (pathOf loc) = k
  · obtain ⟨q, hq, rfl⟩ := hscript
    cases h.project.fate h.answers hq with
    | parsed f' _ _ _ table =>
      rw [table, Option.some_inj] at hf
      rw [← hf]
      exact Script.isOf_extract _ _
    | dropped e _ _ table =>
      rw [table] at hf
      cases hf
    | kept _ _ table =>
      rw [table] at hf
      exact hk _ f hf
  · rw [Project.table_after_of_not_script h.answers fun q hq he => hscript ⟨q, hq, he⟩] at hf
    cases hf

variable {parse : Path → Except IoError Bytes → Attempt} {q : Path}

/-- Without crashes nothing is lost. -/
theorem not_loses (h : s.Scans m p d mode loc es r st) (hp : p.DependsOnFile parse)
    (hcrash : ∀ q ∈ d.scripts (pathOf loc), ∀ c, parse q (d.read q) ≠ .crashed c) :
    ¬Scan.Loses p d r.errors q := by
  rintro ⟨e, he, -, f, hf⟩
  have hfail := h.answers.failed (fun j hj c hc => ?_) e he
  · rw [hf] at hfail
    cases hfail
  · obtain ⟨q', hq', -, rfl⟩ := Project.mem_jobs.1 hj
    exact hcrash q' hq' c (hp.crashed_of_outcomeOn hc)

/-- A full scan without crashes takes in whatever can be parsed. -/
theorem parsed_of_full {it : Item} {sc : Script} (h : s.Scans m p d .full loc es r st)
    (hp : p.DependsOnFile parse) (hq : q ∈ d.scripts (pathOf loc)) (hi : d.item q = .ok it)
    (hparse : parse q (d.read q) = .parsed sc)
    (hcrash : ∀ q ∈ d.scripts (pathOf loc), ∀ c, parse q (d.read q) ≠ .crashed c) :
    (s.analyze m p d .full).session.table.get? (q.relativeTo (pathOf loc)) =
        some (sc.extract (q.relativeTo (pathOf loc))) ∧
      (s.analyze m p d .full).session.ledger.get? q =
        some ⟨q.text, milliseconds it.modified,
          (s.analyze m p d .full).session.ledger.schemaVersion⟩ := by
  have hown := hp.outcomeOn_of_parse (j := Scan.job (pathOf loc) q) hi hparse
  rw [h.state, Project.schemaVersion_after]
  cases h.project.fate h.answers hq with
  | parsed f' mem job _ table ledger =>
    have hown' := h.answers.own f' mem
    rw [job, hown] at hown'
    cases hown'
    exact ⟨table, ledger⟩
  | dropped e mem job =>
    have hpath : e.path = q := congrArg Job.path job
    exact absurd ⟨e, mem, hpath, _, job ▸ hown⟩ (h.not_loses hp hcrash)
  | kept job =>
    refine absurd ?_ job
    rw [Project.due_full]
    exact List.mem_map.2 ⟨q, hq, rfl⟩

/-- An incremental scan leaves alone what its ledger lets pass, in the session and in other
books. -/
theorem kept_of_fresh (h : s.Scans m p d .incremental loc es r st)
    (hq : q ∈ d.scripts (pathOf loc)) (hfresh : s.ledger.isStale d q = false) :
    (s.analyze m p d .incremental).session.table.get? (q.relativeTo (pathOf loc)) =
        s.table.get? (q.relativeTo (pathOf loc)) ∧
      ∀ k, (Project.after d loc k r st s).ledger.get? q = k.get? q := by
  have hdue : Scan.job (pathOf loc) q ∉ Project.due d loc .incremental s.ledger := by
    intro hmem
    obtain ⟨q', -, hd, hjob⟩ := Project.mem_jobs.1 hmem
    obtain rfl : q' = q := congrArg Job.path hjob
    rw [hfresh] at hd
    simp at hd
  rw [h.state]
  exact ⟨(h.project.kept_of_not_due h.answers hq hdue).2.1, fun _ =>
    (h.project.kept_of_not_due h.answers hq hdue).2.2⟩

end Scans

/-! ### What an analysis stores -/

/-- Whether an analysis has stored its graph. -/
def graphStored (s : Session) (result : Except ScanError Analysis) : Bool :=
  s.options.persist &&
    match result with
    | .ok _ => true
    | .error (.io _) => true
    | .error _ => false

theorem graphStored_error {e : ScanError} (h : ∀ x, e ≠ .io x) :
    s.graphStored (.error e) = false := by
  unfold graphStored
  cases e with
  | io x => exact absurd rfl (h x)
  | invalidRoot path reason => exact Bool.and_false _
  | providerInit e => exact Bool.and_false _
  | graph e => exact Bool.and_false _

/-- What an analysis leaves in the state folder: all as it was, a new graph beside the old ledger
after a failure, or both files new. -/
inductive StoreEnd (s : Session) (m : Machine) (p : Provider) (d : Disk) (mode : ScanMode)
    (loc : Location) : Prop
  | nothing (unstored : s.graphStored (s.analyze m p d mode).result = false)
      (graph : (s.analyze m p d mode).disk.stored loc Store.graphFile =
        d.stored loc Store.graphFile)
      (ledger : (s.analyze m p d mode).disk.stored loc Ledger.fileName =
        d.stored loc Ledger.fileName)
  | graphOnly (e : IoError) (failure : (s.analyze m p d mode).result = .error (.io e))
      (stored : s.graphStored (s.analyze m p d mode).result = true)
      (graph : StoresGraph (s.analyze m p d mode).disk loc
        (.ofFiles d.now (s.analyze m p d mode).session.table.values))
      (ledger : (s.analyze m p d mode).disk.stored loc Ledger.fileName =
        d.stored loc Ledger.fileName)
  | both (a : Analysis) (success : (s.analyze m p d mode).result = .ok a)
      (stored : s.graphStored (s.analyze m p d mode).result = true)
      (graph : StoresGraph (s.analyze m p d mode).disk loc
        (.ofFiles d.now (s.analyze m p d mode).session.table.values))
      (ledger : StoresLedger (s.analyze m p d mode).disk loc (s.analyze m p d mode).session.ledger)

/-- An analysis leaves the project alone, and the state folder in one of three ways. -/
theorem Scans.stores (h : s.Scans m p d mode loc es r st) (hready : d.Ready loc)
    (hroot : s.root = pathOf loc) :
    (s.analyze m p d mode).disk.Ready loc ∧ d.SameOutside (s.analyze m p d mode).disk loc ∧
      s.StoreEnd m p d mode loc := by
  have hdisk : (s.analyze m p d mode).disk = _ := congrArg Prod.fst h.report
  have hresult : (s.analyze m p d mode).result = _ := congrArg Prod.snd h.report
  simp only [Project.report, ← h.state] at hdisk hresult
  cases hpersist : s.options.persist with
  | false =>
    rw [hpersist, if_neg (by simp)] at hdisk
    refine ⟨hdisk ▸ hready, hdisk ▸ .refl d loc, .nothing ?_ (by rw [hdisk]) (by rw [hdisk])⟩
    unfold graphStored
    rw [hpersist, Bool.false_and]
  | true =>
    rw [hpersist, if_pos rfl] at hdisk hresult
    have hroot' : (s.analyze m p d mode).session.root = pathOf loc := by rw [root_analyze, hroot]
    obtain ⟨hready', houtside, hend⟩ := persist_effect hready h.project.isName hroot' m
      (.ofFiles d.now (s.analyze m p d mode).session.table.values)
    refine ⟨hdisk ▸ hready', hdisk ▸ houtside, ?_⟩
    cases hend with
    | neither e failure graph ledger =>
      rw [failure] at hresult
      refine .nothing ?_ (by rw [hdisk, graph]) (by rw [hdisk, ledger])
      rw [hresult]
      exact graphStored_error fun x hx => by cases hx
    | graphOnly e failure graph ledger =>
      rw [failure] at hresult
      refine .graphOnly e hresult ?_ (by rw [hdisk]; exact graph) (by rw [hdisk, ledger])
      unfold graphStored
      rw [hresult, hpersist]
      rfl
    | both success graph ledger =>
      rw [success] at hresult
      refine .both _ hresult ?_ (by rw [hdisk]; exact graph) (by rw [hdisk]; exact ledger)
      unfold graphStored
      rw [hresult, hpersist]
      rfl

/-- An analysis leaves a tidy project tidy. -/
theorem analyze_stores (h : d.Tidy loc) (hroot : s.root = pathOf loc) (hm : m.Fair)
    (hp : p.ReadsOnly) (mode : ScanMode) :
    (s.analyze m p d mode).disk.Tidy loc ∧ s.StoreEnd m p d mode loc := by
  rcases scan_cases h hroot hm hp mode with ⟨-, hdisk, e, he, -, hio⟩ | ⟨es, r, st, hscan⟩
  · refine ⟨by rw [hdisk]; exact h, .nothing ?_ (by rw [hdisk]) (by rw [hdisk])⟩
    rw [he]
    exact graphStored_error hio
  · obtain ⟨hready, houtside, hend⟩ := hscan.stores (h.ready hscan.project) hroot
    exact ⟨h.of_sameOutside hscan.project houtside hready, hend⟩

/-- An analysis leaves nothing in the way of storing again. -/
theorem Scans.storable (h : s.Scans m p d mode loc es r st) (hready : d.Ready loc)
    (hroot : s.root = pathOf loc) (hs : Storable d loc) :
    Storable (s.analyze m p d mode).disk loc := by
  have hdisk : (s.analyze m p d mode).disk = _ := congrArg Prod.fst h.report
  simp only [Project.report, ← h.state] at hdisk
  rw [hdisk]
  split
  · exact hs.persist hready h.project.isName (by rw [root_analyze, hroot]) m _
  · exact hs

end Session

/-- A disk has the scripts of another one, unchanged. -/
structure Disk.SameScripts (d d' : Disk) (root : Path) : Prop where
  scripts : d'.scripts root = d.scripts root
  item : ∀ q ∈ d.scripts root, d'.item q = d.item q

theorem Disk.sameScripts_of_outside {d d' : Disk} {loc : Location} {es es' : List (Bytes × Item)}
    (h : Project d loc es) (h' : Project d' loc es') (he : outside es' = outside es) :
    d.SameScripts d' (pathOf loc) :=
  ⟨(h.scripts_congr h' he.symm).symm, fun _ hq => (h.item_congr h' he.symm hq).symm⟩

/-- An analysis leaves the scripts as they are. -/
theorem Session.Scans.sameScripts {s : Session} {m : Machine} {p : Provider} {d : Disk}
    {mode : ScanMode} {loc : Location} {es : List (Bytes × Item)} {r : PoolResult} {st : ScanStats}
    {root : Path} (h : s.Scans m p d mode loc es r st) (hd : d.Tidy loc) (hs : s.root = pathOf loc)
    (hroot : Scan.resolveRoot (s.analyze m p d mode).disk (pathOf loc) = .ok root) :
    d.SameScripts (s.analyze m p d mode).disk (pathOf loc) := by
  obtain ⟨-, houtside, -⟩ := h.stores (hd.ready h.project) hs
  obtain ⟨time, -, hat⟩ := h.project.folder
  obtain ⟨time', es', hat', he⟩ := houtside time es hat
  obtain ⟨-, hproject'⟩ :=
    Project.of_folder hd.isName hd.isText hat' (he ▸ h.project.named) hroot
  exact sameScripts_of_outside h.project hproject' he

end SignalAtlas
