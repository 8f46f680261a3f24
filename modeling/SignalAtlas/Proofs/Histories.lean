import Mathlib.Tactic
import SignalAtlas.Proofs.Analyses

/-!
# Histories of a project

A *history* is a list of events in a world that consists of a disk and the sessions that are open:
the files change, a session is opened, or a session analyses the project. `World.run` plays a
history.

For the proofs a world also keeps books: `Live.known` lists the files whose facts the table of a
session holds, each with the time of the state that the facts are from, and `World.known` does the
same for the stored graph. No session looks at them.

* `Setting` and `Setting.AdmitsAll`: what is assumed of a project and of a history;
* `World.Sound`, kept by every event (`World.Sound.run`): what the books say is true of the tables
  and of the stored graph.
-/

namespace SignalAtlas

open Disk

/-! ### Worlds and events -/

/-- The entries of a ledger that another one has as well. -/
def Ledger.agreeing (l k : Ledger) : Ledger :=
  { l with entries := l.entries.filter fun path e => k.entries.get? path = some e }

theorem Ledger.get?_agreeing {l k : Ledger} {q : Path} {e : LedgerEntry} :
    (l.agreeing k).get? q = some e ↔ l.get? q = some e ∧ k.get? q = some e := by
  unfold Ledger.agreeing Ledger.get?
  rw [SortedMap.get?_filter, Option.filter_eq_some_iff, decide_eq_true_eq]

/-- A session that is open, with the states of files that the facts in its table are from. -/
structure Live where
  session : Session
  known : Ledger

/-- A disk with the sessions that are open, in the order of opening, and the states of files that
the facts in the stored graph are from. -/
structure World where
  disk : Disk
  live : List Live
  known : Ledger

/-- Something that happens in a world: the disk changes, a session is opened, or an open session
analyses its project. -/
inductive Event where
  | change (d : Disk)
  | open (root : Path) (o : SessionOptions)
  | analyze (i : Nat) (m : Machine) (p : Provider) (mode : ScanMode)

/-- An open session after an analysis. -/
def Live.analyze (lv : Live) (m : Machine) (p : Provider) (d : Disk) (mode : ScanMode) : Live where
  session := (lv.session.analyze m p d mode).session
  known :=
    match
      (Scan.run m p lv.session.options.scan mode lv.session.ledger d lv.session.root).result with
    | .ok o => (lv.session.absorb (Scan.record lv.known o.files) o).ledger
    | .error _ => lv.known

namespace World

/-- A world without sessions and without anything stored. -/
def start (d : Disk) : World := ⟨d, [], .empty⟩

/-- What an event does. -/
def step (w : World) : Event → World
  | .change d => { w with disk := d }
  | .open root o =>
    match Session.open w.disk root o with
    | .ok s => { w with live := w.live ++ [⟨s, s.ledger.agreeing w.known⟩] }
    | .error _ => w
  | .analyze i m p mode =>
    match w.live[i]? with
    | none => w
    | some lv =>
      let report := lv.session.analyze m p w.disk mode
      let lv' := lv.analyze m p w.disk mode
      { disk := report.disk
        live := w.live.set i lv'
        known := if lv.session.graphStored report.result then lv'.known else w.known }

theorem step_open {w : World} {root : Path} {o : SessionOptions} {s : Session}
    (h : Session.open w.disk root o = .ok s) :
    w.step (.open root o) = { w with live := w.live ++ [⟨s, s.ledger.agreeing w.known⟩] } := by
  unfold step
  simp only [h]

theorem step_analyze {w : World} {i : Nat} {lv : Live} (h : w.live[i]? = some lv) (m : Machine)
    (p : Provider) (mode : ScanMode) :
    w.step (.analyze i m p mode) =
      { disk := (lv.session.analyze m p w.disk mode).disk
        live := w.live.set i (lv.analyze m p w.disk mode)
        known := if lv.session.graphStored (lv.session.analyze m p w.disk mode).result
          then (lv.analyze m p w.disk mode).known else w.known } := by
  unfold step
  simp only [h]

/-- Play a history. -/
def run (w : World) (events : List Event) : World := events.foldl step w

/-- A history that begins when its first session is opened. -/
theorem run_start_open {d : Disk} {root : Path} {o : SessionOptions} {s : Session}
    (h : Session.open d root o = .ok s) (events : List Event) :
    (start d).run (.open root o :: events) =
      run ⟨d, [⟨s, s.ledger.agreeing .empty⟩], .empty⟩ events := by
  unfold run
  rw [List.foldl_cons, step_open (w := start d) h]
  rfl

/-- The result of an analysis. -/
def result? (w : World) : Event → Option (Except ScanError Analysis)
  | .analyze i m p mode =>
    w.live[i]?.map fun lv => (lv.session.analyze m p w.disk mode).result
  | _ => none

theorem result?_analyze {w : World} {i : Nat} {lv : Live} {m : Machine} {p : Provider}
    {mode : ScanMode} (h : w.live[i]? = some lv) :
    w.result? (.analyze i m p mode) = some (lv.session.analyze m p w.disk mode).result := by
  unfold result?
  simp only [h, Option.map_some]

end World

/-! ### What is assumed of a history -/

/-- The place of a project, by names that are texts, what parsing makes of its files, and the
contents of its scripts by the times of their last change in milliseconds. -/
structure Setting where
  loc : Location
  isName : ∀ s ∈ loc, IsName s
  isText : ∀ s ∈ loc, s.IsText
  parse : Path → Except IoError Bytes → Attempt
  contents : Location → UInt64 → Bytes

namespace Setting

/-- What is assumed of the files: no link leads to the state of the project, the names in the
project are in order, and a script's contents are told by the time of its last change. -/
structure Settled (S : Setting) (d : Disk) : Prop where
  linkFree : ∀ name, d.LinkFree (statePlace S.loc name)
  named : ∀ time es, d.root.at? S.loc = some (.folder time es) →
    Discovery.Named (outside es)
  contents : ∀ time es, d.root.at? S.loc = some (.folder time es) →
    ∀ names ∈ Discovery.below true es, ∀ b t, d.root.at? (S.loc ++ names) = some (.file b t) →
      b = S.contents names (milliseconds t)

/-- What is assumed of an event: whoever changes the disk leaves the stored files alone, sessions
are opened on the project, messages of workers stay in order, and the outcome of a provider depends
on the file alone. -/
def Admits (S : Setting) (w : World) : Event → Prop
  | .change d => S.Settled d ∧ ∀ name b time, d.stored S.loc name = some (.file b time) →
      ∃ time', w.disk.stored S.loc name = some (.file b time')
  | .open root _ => ∀ r, Scan.resolveRoot w.disk root = .ok r → r = pathOf S.loc
  | .analyze _ m p _ => m.Fair ∧ p.DependsOnFile S.parse

/-- What is assumed of a history. -/
def AdmitsAll (S : Setting) : World → List Event → Prop
  | _, [] => True
  | w, e :: events => S.Admits w e ∧ S.AdmitsAll (w.step e) events

theorem AdmitsAll.of_concat {S : Setting} {w : World} {events : List Event} {e : Event}
    (h : S.AdmitsAll w (events ++ [e])) : S.AdmitsAll w events ∧ S.Admits (w.run events) e := by
  induction events generalizing w with
  | nil => exact ⟨trivial, h.1⟩
  | cons e' events ih => exact ⟨⟨h.1, (ih h.2).1⟩, (ih h.2).2⟩

/-! ### Analyses in a settled world -/

section Analyses

variable {S : Setting} {d d' : Disk} {lv : Live} {m : Machine} {p : Provider} {mode : ScanMode}
  {es : List (Bytes × Item)} {r : PoolResult} {st : ScanStats}

theorem Settled.tidy (h : S.Settled d) : d.Tidy S.loc := ⟨S.isName, S.isText, h.linkFree, h.named⟩

/-- How to see that a disk is as assumed. -/
theorem Settled.of_folder {time : Int} (hready : d.Ready S.loc)
    (hat : d.root.at? S.loc = some (.folder time es))
    (hnamed : Discovery.Named (outside es))
    (hcontents : ((Discovery.below true es).all fun names =>
      match (Item.folder time es).at? names with
      | some (.file b t) => b == S.contents names (milliseconds t)
      | _ => true) = true) :
    S.Settled d := by
  refine ⟨hready.linkFree, fun time' es' h => ?_, fun time' es' h names hm b t hb => ?_⟩
  · rw [hat] at h
    cases h
    exact hnamed
  · rw [hat] at h
    cases h
    rw [Item.at?_append, hat, Option.bind_some] at hb
    have hbytes := List.all_eq_true.1 hcontents names hm
    rw [hb] at hbytes
    exact eq_of_beq hbytes

/-- Storing the state does not unsettle a project. -/
theorem Settled.of_sameOutside (h : S.Settled d) (hp : Project d S.loc es)
    (ho : d.SameOutside d' S.loc) (hr : d'.Ready S.loc) : S.Settled d' := by
  have htidy := h.tidy.of_sameOutside hp ho hr
  refine ⟨htidy.linkFree, htidy.named, ?_⟩
  intro t es'' h'' names hnames b time'' hb
  obtain ⟨time, -, hat⟩ := hp.folder
  obtain ⟨time', es', hat', he⟩ := ho time es hat
  rw [h''] at hat'
  cases hat'
  have hmem : names ∈ Discovery.below true es := by
    rwa [← Discovery.below_outside, ← he, Discovery.below_outside]
  obtain ⟨hproper, c, time₀, hc⟩ := hp.file_of_mem hmem
  refine h.contents time es hat names hmem b time'' ?_
  rw [Item.at?_append, h'', Option.bind_some,
    Discovery.at?_outside hproper.ne_nil (he ▸ hc t)] at hb
  cases hb
  exact (hp.item_of_mem hproper hc).1

/-- What an analysis that gets past its scan does to an open session: the books take the result
over, too. -/
structure Scanned (S : Setting) (d : Disk) (lv : Live) (m : Machine) (p : Provider)
    (mode : ScanMode) (es : List (Bytes × Item)) (r : PoolResult) (st : ScanStats) : Prop extends
    lv.session.Scans m p d mode S.loc es r st where
  known : (lv.analyze m p d mode).known = (Project.after d S.loc lv.known r st lv.session).ledger

theorem Scanned.session (h : S.Scanned d lv m p mode es r st) :
    (lv.analyze m p d mode).session = Project.after d S.loc lv.session.ledger r st lv.session :=
  h.state

theorem analyze_cases (h : S.Settled d) (hroot : lv.session.root = pathOf S.loc) (hm : m.Fair)
    (hp : p.DependsOnFile S.parse) (mode : ScanMode) :
    (lv.analyze m p d mode = lv ∧ (lv.session.analyze m p d mode).disk = d ∧
        ∃ e, (lv.session.analyze m p d mode).result = .error e ∧
          (∀ x, e ≠ .graph x) ∧ ∀ x, e ≠ .io x) ∨
      ∃ es r st, S.Scanned d lv m p mode es r st := by
  rcases Session.analyze_cases m p lv.session d mode with
    ⟨hsession, hdisk, e, hrun, hresult, hgraph, hio⟩ | ⟨⟨root, hresolve⟩, hinit⟩
  · refine .inl ⟨?_, hdisk, e, hresult, hgraph, hio⟩
    unfold Live.analyze
    rw [hsession, hrun]
  · rw [hroot] at hresolve
    obtain ⟨es, st, hscan⟩ :=
      Session.scans_of_resolves h.tidy hroot hm hp.readsOnly mode hresolve hinit
    obtain ⟨rfl, -⟩ := h.tidy.project hresolve
    have hfix : Pool.Fixed p (Project.due d S.loc mode lv.session.ledger) (Pool.outcomeOn p d)
        (· = d) := hp.fixed fun _ _ => rfl
    have hrun := hscan.project.run_result hm hfix lv.session.options.scan hresolve hinit
    refine .inr ⟨es, _, st, hscan, ?_⟩
    unfold Live.analyze
    rw [hroot, hrun, hscan.counts]
    rfl

theorem scanned_of_ok {a : Analysis} (lv : Live) (hs : S.Settled d)
    (hroot : lv.session.root = pathOf S.loc) (hm : m.Fair) (hp : p.DependsOnFile S.parse)
    (hok : (lv.session.analyze m p d mode).result = .ok a) :
    ∃ es r st, S.Scanned d lv m p mode es r st := by
  rcases analyze_cases hs hroot hm hp mode with ⟨-, -, e, he, -⟩ | hscan
  · rw [hok] at he
    cases he
  · exact hscan

end Analyses

/-! ### True books -/

/-- Facts of a file are those of a script that parsing gives for its contents at some time. -/
def FactsAt (S : Setting) (names : Location) (mtime : UInt64) (f : FileSignals) : Prop :=
  ∃ sc, S.parse (pathOf (S.loc ++ names)) (.ok (S.contents names mtime)) = .parsed sc ∧
    f.share = (sc.extract (joinSlashes names).lossy).share

/-- For every file in a ledger a table holds the facts from the time in the ledger. -/
def Vouches (S : Setting) (known : Ledger) (t : SortedMap String FileSignals) : Prop :=
  ∀ names, Proper names → ∀ e, known.get? (pathOf (S.loc ++ names)) = some e →
    ∃ f, t.get? (joinSlashes names).lossy = some f ∧ S.FactsAt names e.mtime f

/-- An open session of the project whose books are true: its table lists files under their own
paths, and holds the facts that the books claim. -/
structure LiveSound (S : Setting) (lv : Live) : Prop where
  root : lv.session.root = pathOf S.loc
  keyed : Keyed lv.session.table
  vouched : S.Vouches lv.known lv.session.table

section Books

variable {S : Setting} {d : Disk} {lv : Live} {m : Machine} {p : Provider} {mode : ScanMode}
  {es : List (Bytes × Item)} {r : PoolResult} {st : ScanStats} {q : Path} {l : Ledger}

/-- The contents of a script that is found. -/
theorem Settled.read (h : S.Settled d) (hp : Project d S.loc es) {names : Location} {it : Item}
    (hm : names ∈ Discovery.below true es) (hi : d.item (pathOf (S.loc ++ names)) = .ok it) :
    d.read (pathOf (S.loc ++ names)) = .ok (S.contents names (milliseconds it.modified)) := by
  obtain ⟨hproper, b, time, hat⟩ := hp.file_of_mem hm
  obtain ⟨hplace, hitem⟩ := hp.item_of_mem hproper hat
  obtain ⟨t, -, hfolder⟩ := hp.folder
  rw [hi] at hitem
  cases hb : barrier? (S.loc ++ names) with
  | some e =>
    rw [hb] at hitem
    cases hitem
  | none =>
    rw [hb] at hitem
    cases hitem
    unfold Disk.read
    rw [hi]
    exact congrArg Except.ok (h.contents t es hfolder names hm b time hplace)

/-- A parsed file has the facts from the time of its last change. -/
theorem Settled.factsAt (h : S.Settled d) (hp : Project d S.loc es)
    (hparse : p.DependsOnFile S.parse) {names : Location}
    (hm : names ∈ Discovery.below true es) {f : ParsedFile}
    (ho : Pool.outcomeOn p d f.job = .ok (.parsed f)) (hf : f.path = pathOf (S.loc ++ names)) :
    S.FactsAt names f.mtime (f.script.extract (joinSlashes names).lossy) := by
  obtain ⟨it, hi, hs, hmtime⟩ := hparse.parse_of_outcomeOn ho
  rw [show f.job.path = pathOf (S.loc ++ names) from hf] at hi hs
  rw [h.read hp hm hi, ← hmtime] at hs
  exact ⟨f.script, hs, rfl⟩

/-- The books stay true in a scan, whatever the fate of a script. -/
theorem Scanned.vouches (h : S.Scanned d lv m p mode es r st) (hs : S.Settled d)
    (hp : p.DependsOnFile S.parse) (hv : S.Vouches lv.known lv.session.table) :
    S.Vouches (lv.analyze m p d mode).known (lv.analyze m p d mode).session.table := by
  rw [h.session, h.known]
  intro names hnames e he
  by_cases hscript : pathOf (S.loc ++ names) ∈ d.scripts (pathOf S.loc)
  · have hrel : (pathOf (S.loc ++ names)).relativeTo (pathOf S.loc) = (joinSlashes names).lossy :=
      hnames.relativeTo S.isName
    obtain ⟨names', hm, heq⟩ := h.project.mem_scripts.1 hscript
    have hproper' := (h.project.file_of_mem hm).1
    obtain rfl : names' = names := List.append_cancel_left
      (pathOf_inj (hproper'.isName_append S.isName) (hnames.isName_append S.isName) heq)
    cases h.project.fate (k := lv.known) h.answers hscript with
    | parsed f mem job _ table ledger =>
      rw [ledger] at he
      cases he
      rw [hrel] at table
      exact ⟨_, table, hs.factsAt h.project hp hm (h.answers.own f mem) (congrArg Job.path job)⟩
    | dropped e' _ _ _ ledger =>
      rw [ledger] at he
      cases he
    | kept _ _ table ledger =>
      rw [ledger] at he
      obtain ⟨f, hf, hfacts⟩ := hv names' hnames e he
      rw [hrel] at table
      exact ⟨f, table.trans hf, hfacts⟩
  · have hnot : ∀ q ∈ d.scripts (pathOf S.loc),
        q.same (.ofText (pathOf (S.loc ++ names)).text) = false := by
      intro q hq
      rw [hnames.ofText_text S.isText]
      obtain ⟨names', hproper', rfl⟩ := h.project.script_of_mem hq
      rw [Bool.eq_false_iff]
      intro hsame
      rw [(same_pathOf (hproper'.isName_append S.isName) (hnames.isName_append S.isName)).1 hsame]
        at hq
      exact hscript hq
    rw [Project.ledger_after_of_not_script hnot] at he
    cases he

theorem LiveSound.analyze (h : S.LiveSound lv) (hs : S.Settled d) (hm : m.Fair)
    (hp : p.DependsOnFile S.parse) (mode : ScanMode) : S.LiveSound (lv.analyze m p d mode) := by
  rcases analyze_cases hs h.root hm hp mode with ⟨hsame, -⟩ | ⟨es, r, st, hscan⟩
  · rw [hsame]
    exact h
  · refine ⟨?_, hscan.keyed h.keyed, hscan.vouches hs hp h.vouched⟩
    rw [hscan.session, Project.root_after, h.root]

end Books

theorem analyze_stores {S : Setting} {d : Disk} {lv : Live} {m : Machine} {p : Provider}
    (hs : S.Settled d) (hroot : lv.session.root = pathOf S.loc) (hm : m.Fair)
    (hp : p.DependsOnFile S.parse) (mode : ScanMode) :
    S.Settled (lv.session.analyze m p d mode).disk ∧ lv.session.StoreEnd m p d mode S.loc := by
  have hend := (Session.analyze_stores hs.tidy hroot hm hp.readsOnly mode).2
  rcases analyze_cases hs hroot hm hp mode with ⟨-, hdisk, -⟩ | ⟨es, r, st, hscan⟩
  · exact ⟨by rw [hdisk]; exact hs, hend⟩
  · obtain ⟨hready, houtside, -⟩ := hscan.stores (hs.tidy.ready hscan.project) hroot
    exact ⟨hs.of_sameOutside hscan.project houtside hready, hend⟩

end Setting

/-! ### Worlds with true books -/

namespace World

/-- The books of a world are true: those of its sessions, and what is stored is a graph with the
facts that the books claim. -/
structure Sound (S : Setting) (w : World) : Prop where
  settled : S.Settled w.disk
  live : ∀ lv ∈ w.live, S.LiveSound lv
  stored : ∀ b time, w.disk.stored S.loc Store.graphFile = some (.file b time) →
    ∃ now t, b = Text.bytes (Graph.ofFiles now t.values).toJson.pretty ∧ Keyed t ∧
      S.Vouches w.known t

variable {S : Setting} {w : World}

theorem sound_start {d : Disk} (h : S.Settled d)
    (hnew : ∀ name b time, d.stored S.loc name ≠ some (.file b time)) : (start d).Sound S :=
  ⟨h, nofun, fun b time hb => absurd hb (hnew _ b time)⟩

theorem Sound.change {d : Disk} (h : w.Sound S) (ha : S.Admits w (.change d)) :
    (w.step (.change d)).Sound S := by
  refine ⟨ha.1, h.live, fun b time hb => ?_⟩
  obtain ⟨time', hb'⟩ := ha.2 _ b time hb
  exact h.stored b time' hb'

/-- What a session restores is what the books say of the stored graph and its ledger. -/
theorem Sound.vouches_restored {s : Session} {root : Path} {o : SessionOptions} (h : w.Sound S)
    (hs : Session.open w.disk root o = .ok s) (hroot : s.root = pathOf S.loc) :
    S.Vouches (s.ledger.agreeing w.known) s.table := by
  intro names hnames e he
  obtain ⟨hledger, hknown⟩ := Ledger.get?_agreeing.1 he
  obtain ⟨g, hload, hl, ht⟩ := Session.restored_of_open hs hledger
  rw [hl, hroot] at hledger
  rw [hroot] at hload ht
  obtain ⟨b, time, hb, hg⟩ := Store.stored_of_load? S.isName (h.settled.linkFree _) hload
  obtain ⟨now, t, rfl, hkeyed, hvouches⟩ := h.stored b time hb
  rw [Store.ofBytes?_toJson rfl] at hg
  split at hg
  · rw [Option.some_inj] at hg
    obtain ⟨f, hf, hfacts⟩ := hvouches names hnames e hknown
    have hmem : (joinSlashes names).lossy ∈ (Session.storedLedger w.disk (pathOf S.loc)).paths.map
        fun path => (Path.ofText path).relativeTo (pathOf S.loc) :=
      List.mem_map.2 ⟨_, SortedMap.mem_keys.2 ⟨e, hledger⟩, by
        rw [hnames.ofText_text S.isText, hnames.relativeTo S.isName]⟩
    -- a file that the graph has no facts of is in the table because of its entry
    have hget := Session.get?_restored hload (joinSlashes names).lossy
    rw [if_pos hmem, Option.or_some] at hget
    have hshare := hkeyed.shareOf_ofFiles now (joinSlashes names).lossy
    rw [hg, hf, Option.getD_some] at hshare
    obtain ⟨sc, hparse, hsc⟩ := hfacts
    exact ⟨_, ht ▸ hget, sc, hparse, hshare.trans hsc⟩
  · cases hg

theorem Sound.open {root : Path} {o : SessionOptions} (h : w.Sound S)
    (ha : S.Admits w (.open root o)) : (w.step (.open root o)).Sound S := by
  unfold step
  cases hs : Session.open w.disk root o with
  | error e =>
    simp only [hs]
    exact h
  | ok s =>
    have hroot : s.root = pathOf S.loc := ha _ (Session.root_of_open hs).1
    simp only [hs]
    refine ⟨h.settled, fun lv hlv => ?_, h.stored⟩
    rcases List.mem_append.1 hlv with hlv | hlv
    · exact h.live lv hlv
    · rw [List.mem_singleton] at hlv
      subst hlv
      exact ⟨hroot, Session.keyed_of_open hs, h.vouches_restored hs hroot⟩

theorem Sound.analyze {i : Nat} {m : Machine} {p : Provider} {mode : ScanMode} (h : w.Sound S)
    (ha : S.Admits w (.analyze i m p mode)) : (w.step (.analyze i m p mode)).Sound S := by
  obtain ⟨hm, hp⟩ := ha
  unfold step
  cases hi : w.live[i]? with
  | none =>
    simp only [hi]
    exact h
  | some lv =>
    simp only [hi]
    have hlv := h.live lv (List.mem_of_getElem? hi)
    have hlive : ∀ lv' ∈ w.live.set i (lv.analyze m p w.disk mode), S.LiveSound lv' := by
      intro lv' hlv'
      rcases List.mem_or_eq_of_mem_set hlv' with hold | rfl
      · exact h.live lv' hold
      · exact hlv.analyze h.settled hm hp mode
    obtain ⟨hsettled, hend⟩ := Setting.analyze_stores h.settled hlv.root hm hp mode
    have hnew := hlv.analyze h.settled hm hp mode
    -- a new graph is the one of the table, whose facts the books of the session vouch for
    have hgraph : ∀ {time b}, Session.StoresGraph (lv.session.analyze m p w.disk mode).disk S.loc
        (.ofFiles w.disk.now (lv.analyze m p w.disk mode).session.table.values) →
        (lv.session.analyze m p w.disk mode).disk.stored S.loc Store.graphFile =
          some (.file b time) →
        ∃ now t, b = Text.bytes (Graph.ofFiles now t.values).toJson.pretty ∧ Keyed t ∧
          S.Vouches (lv.analyze m p w.disk mode).known t := by
      rintro time b ⟨-, time', hstored⟩ hb
      rw [hstored] at hb
      cases hb
      exact ⟨_, _, rfl, hnew.keyed, hnew.vouched⟩
    refine ⟨hsettled, hlive, fun b time hb => ?_⟩
    cases hend with
    | nothing unstored graph ledger =>
      rw [unstored, if_neg (by simp)]
      exact h.stored b time (graph ▸ hb)
    | graphOnly e failure stored graph ledger =>
      rw [stored, if_pos rfl]
      exact hgraph graph hb
    | both _ _ stored graph ledger =>
      rw [stored, if_pos rfl]
      exact hgraph graph hb

theorem Sound.step {e : Event} (h : w.Sound S) (ha : S.Admits w e) : (w.step e).Sound S := by
  cases e with
  | change d => exact h.change ha
  | «open» root o => exact h.open ha
  | analyze i m p mode => exact h.analyze ha

theorem Sound.run {events : List Event} (h : w.Sound S) (ha : S.AdmitsAll w events) :
    (w.run events).Sound S := by
  induction events generalizing w with
  | nil => exact h
  | cons e events ih => exact ih (h.step ha.1) ha.2

end World

end SignalAtlas
