import Mathlib.Tactic
import SignalAtlas.Proofs.Ledgers

/-!
# A second analysis of an unchanged tree

After an analysis every script of a project is listed in its present state or was dropped
(`Session.Scans.standing`). So if no script changes, an incremental analysis that takes up from
there, in the same session or in one that restores its state, skips the former and tries the latter
again.

* `Session.Resumes`: what such a session has in common with the earlier one;
* `Session.resumes_of_open`: a session that restores stored state has it;
* `unchanged_tree_is_not_parsed_again`: nothing is parsed then that was not lost to a crash before.

A file that was dropped because another one of its chunk crashed may well be parsed the second time
(`lost_file_is_parsed_again`).
-/

namespace SignalAtlas

open Disk

/-! ### Taking up a session -/

/-- A session takes up where another one of the project stands: with the same ledger, and with the
same facts of all that it lists. -/
structure Session.Resumes (s s' : Session) (loc : Location) : Prop where
  root : s'.root = pathOf loc
  ledger : s'.ledger = s.ledger
  keyed : Keyed s'.table
  facts : ∀ names, Proper names → ∀ e, s.ledger.get? (pathOf (loc ++ names)) = some e →
    (s'.table.get? (joinSlashes names).lossy).map FileSignals.share =
      (s.table.get? (joinSlashes names).lossy).map FileSignals.share

namespace Session

variable {s s' : Session} {loc : Location} {d : Disk}

theorem InOrder.resumes (h : s.InOrder loc) : s.Resumes s loc :=
  ⟨h.root, rfl, h.keyed, fun _ _ _ _ => rfl⟩

theorem InOrder.storedLedger_eq (h : s.InOrder loc) (hn : ∀ s ∈ loc, IsName s)
    (hledger : StoresLedger d loc s.ledger) : storedLedger d (pathOf loc) = s.ledger := by
  unfold storedLedger
  rw [Ledger.load_of_stores hledger hn, Ledger.entries?_toJson]
  show Ledger.mk Graph.schema s.ledger.entries = s.ledger
  rw [← h.version]

/-- A session that restores what another one has stored takes up where that one stands. -/
theorem resumes_of_open {root : Path} {o : SessionOptions} {now : UInt64} {g : SizedGraph}
    (h : s.InOrder loc) (hn : ∀ s ∈ loc, IsName s) (htext : ∀ s ∈ loc, s.IsText)
    (hg : Graph.ofFiles now s.table.values = g.toGraph)
    (hgraph : StoresGraph d loc (.ofFiles now s.table.values))
    (hledger : StoresLedger d loc s.ledger) (hopen : Session.open d root o = .ok s')
    (hroot : s'.root = pathOf loc) (hpersist : o.persist = true) : s.Resumes s' loc := by
  have hload : Store.load? d (pathOf loc) = some (.ofFiles now s.table.values) := by
    rw [Store.load?_of_stores hgraph hn, Store.ofBytes?_toJson rfl, hg,
      if_pos g.sized]
  have hstate := state_of_open hopen
  rw [hroot, if_pos hpersist] at hstate
  have hl : s'.ledger = s.ledger :=
    (congrArg Prod.fst hstate).trans ((ledger_restored hload).trans (h.storedLedger_eq hn hledger))
  have ht : s'.table = _ := congrArg Prod.snd hstate
  refine ⟨hroot, hl, keyed_of_open hopen, fun names hnames e he => ?_⟩
  -- a listed file is in the restored table, with the facts that the graph has of it
  obtain ⟨f, hf⟩ := h.lists names hnames e he
  have hmem : (joinSlashes names).lossy ∈ (storedLedger d (pathOf loc)).paths.map
      fun path => (Path.ofText path).relativeTo (pathOf loc) := by
    rw [h.storedLedger_eq hn hledger]
    refine List.mem_map.2 ⟨_, SortedMap.mem_keys.2 ⟨e, he⟩, ?_⟩
    rw [hnames.ofText_text htext, hnames.relativeTo hn]
  have hshare := h.keyed.shareOf_ofFiles now (joinSlashes names).lossy
  rw [hf, Option.getD_some] at hshare
  rw [ht, get?_restored hload, if_pos hmem, Option.or_some, hf, Option.map_some, Option.map_some,
    ← hshare]
  rfl

end Session

/-! ### The second scan -/

/-- The jobs of the scripts that were dropped. -/
def Scan.retries (d : Disk) (root : Path) (errors : List FileError) : List Job :=
  ((d.scripts root).filter fun q => q ∈ errors.map FileError.path).map (job root)

namespace Session.Scans

variable {s s₂ : Session} {m m₂ : Machine} {p : Provider} {d d₂ : Disk} {mode : ScanMode}
  {loc : Location} {es es₂ : List (Bytes × Item)} {r r₂ : PoolResult} {st st₂ : ScanStats}
  {q : Path}

theorem length_retries (h : s.Scans m p d mode loc es r st) :
    (Scan.retries d (pathOf loc) r.errors).length = r.errors.length := by
  have hrest := h.length_remaining
  have hsplit := List.length_eq_length_filter_add (l := d.scripts (pathOf loc))
    fun q => q ∈ r.errors.map FileError.path
  unfold remaining at hrest
  unfold Scan.retries
  simp only [decide_not] at hrest
  rw [List.length_map]
  omega

variable (h : s.Scans m p d mode loc es r st) (ho : s.InOrder loc)
  (hs : (s.analyze m p d mode).session.Resumes s₂ loc) (hd : d.SameScripts d₂ (pathOf loc))

include h ho hs hd

/-- Of unchanged scripts, those are stale that were dropped. -/
theorem isStale_resumed (hq : q ∈ d.scripts (pathOf loc)) :
    s₂.ledger.isStale d₂ q = decide (q ∈ r.errors.map FileError.path) := by
  rw [hs.ledger]
  cases h.standing ho.root ho.lists hq with
  | listed e it _ undropped item ledger version time =>
    rw [Ledger.isStale_eq_false_iff.2
      ⟨e, it, ledger, version, (hd.item q hq).trans item, time⟩, eq_comm, decide_eq_false_iff_not]
    intro hmem
    obtain ⟨e', he', hpath⟩ := List.mem_map.1 hmem
    exact undropped e' he' hpath
  | dropped e mem job ledger =>
    have hstale : (s.analyze m p d mode).session.ledger.isStale d₂ q = true := by
      unfold Ledger.isStale
      rw [ledger]
    rw [hstale, eq_comm, decide_eq_true_eq]
    exact List.mem_map.2 ⟨e, mem, congrArg Job.path job⟩

/-- So those are due. -/
theorem due_resumed :
    Project.due d₂ loc .incremental s₂.ledger = Scan.retries d (pathOf loc) r.errors := by
  unfold Project.due Scan.jobs Scan.retries
  rw [hd.scripts]
  congr 1
  refine List.filter_congr fun q hq => ?_
  rw [h.isStale_resumed ho hs hd hq]
  simp

theorem counts_resumed (h₂ : s₂.Scans m₂ p d₂ .incremental loc es₂ r₂ st₂) :
    st₂.filesDiscovered = st.filesDiscovered ∧
      st₂.filesSkipped = st.filesParsed + st.filesSkipped ∧
      st₂.filesParsed + st₂.filesFailed = st.filesFailed := by
  obtain ⟨hfound, hfailed, hsum⟩ := h.counts_eq
  obtain ⟨hfound₂, -, hsum₂⟩ := h₂.counts_eq
  have hskipped : st₂.filesSkipped = (d.scripts (pathOf loc)).length - r.errors.length := by
    rw [h₂.counts, ← h.length_retries, ← h.due_resumed ho hs hd, ← hd.scripts]
    rfl
  have hrest := h.length_remaining
  rw [hd.scripts] at hfound₂
  omega

variable {parse : Path → Except IoError Bytes → Attempt}

/-- A job of the second scan is one that was dropped. -/
theorem error_of_due {j : Job} (hj : j ∈ Project.due d₂ loc .incremental s₂.ledger) :
    ∃ e ∈ r.errors, e.job = j ∧ j.path ∈ d.scripts (pathOf loc) := by
  rw [h.due_resumed ho hs hd] at hj
  obtain ⟨q, hq, rfl⟩ := List.mem_map.1 hj
  obtain ⟨hscript, hmem⟩ := List.mem_filter.1 hq
  obtain ⟨e, he, rfl⟩ := List.mem_map.1 (of_decide_eq_true hmem)
  obtain ⟨q, -, hjob⟩ :=
    Project.job_mem_scripts h.answers (List.mem_append_right _ (List.mem_map.2 ⟨e, he, rfl⟩))
  obtain rfl : q = e.path := congrArg Job.path hjob
  exact ⟨e, he, hjob.symm, hscript⟩

/-- What the second scan parses, the first one had lost. -/
theorem loses_of_parsed (hp : p.DependsOnFile parse)
    (h₂ : s₂.Scans m₂ p d₂ .incremental loc es₂ r₂ st₂) {f : ParsedFile} (hf : f ∈ r₂.parsed) :
    Scan.Loses p d r.errors f.path := by
  have hdue := h₂.answers.once.mem_iff.1 (List.mem_append_left _ (List.mem_map.2 ⟨f, hf, rfl⟩))
  obtain ⟨e, he, hjob, hscript⟩ := h.error_of_due ho hs hd hdue
  refine ⟨e, he, congrArg Job.path hjob, f, ?_⟩
  rw [hjob, ← hp.outcomeOn_congr (hd.item _ hscript)]
  exact h₂.answers.own f hf

/-- The table has the same facts of all that was not lost. -/
theorem facts_resumed (hp : p.DependsOnFile parse)
    (h₂ : s₂.Scans m₂ p d₂ .incremental loc es₂ r₂ st₂) {k : String}
    (hk : ∀ q, Scan.Loses p d r.errors q → q.relativeTo (pathOf loc) ≠ k) :
    ((s₂.analyze m₂ p d₂ .incremental).session.table.get? k).map FileSignals.share =
      ((s.analyze m p d mode).session.table.get? k).map FileSignals.share := by
  by_cases hscript : ∃ q ∈ d.scripts (pathOf loc), q.relativeTo (pathOf loc) = k
  · obtain ⟨q, hq, rfl⟩ := hscript
    have hq₂ : q ∈ d₂.scripts (pathOf loc) := by rwa [hd.scripts]
    have hroot : (s.analyze m p d mode).session.root = pathOf loc := by rw [root_analyze, ho.root]
    have hstale := h.isStale_resumed ho hs hd hq
    cases h.standing ho.root ho.lists hq with
    | listed e _ _ undropped _ ledger =>
      have hnot : q ∉ r.errors.map FileError.path := by
        intro hmem
        obtain ⟨e', he', hpath⟩ := List.mem_map.1 hmem
        exact undropped e' he' hpath
      rw [decide_eq_false hnot] at hstale
      obtain ⟨names, hnames, rfl⟩ := h.project.script_of_mem hq
      rw [(h₂.kept_of_fresh hq₂ hstale).1, hnames.relativeTo h.project.isName]
      exact hs.facts names hnames e ledger
    | dropped e mem job _ table =>
      rw [hroot] at table
      rw [table]
      -- it is due again, and not parsed
      cases h₂.project.fate h₂.answers hq₂ with
      | parsed f mem₂ job₂ =>
        obtain rfl : f.path = q := congrArg Job.path job₂
        exact absurd rfl (hk _ (h.loses_of_parsed ho hs hd hp h₂ mem₂))
      | dropped _ _ _ table₂ => rw [h₂.state, table₂]
      | kept job₂ =>
        refine absurd ?_ job₂
        rw [h.due_resumed ho hs hd]
        have hmem : q ∈ r.errors.map FileError.path :=
          List.mem_map.2 ⟨e, mem, congrArg Job.path job⟩
        exact List.mem_map.2 ⟨q, List.mem_filter.2 ⟨hq, decide_eq_true hmem⟩, rfl⟩
  · have hnone : ∀ q ∈ d.scripts (pathOf loc), q.relativeTo (pathOf loc) ≠ k := fun q hq he =>
      hscript ⟨q, hq, he⟩
    rw [h.state, h₂.state, Project.table_after_of_not_script h.answers hnone,
      Project.table_after_of_not_script h₂.answers (hd.scripts ▸ hnone)]

end Session.Scans

/-! ### The second analysis -/

/-- An analysis looks again at what an earlier one of the same scripts has dropped, and takes in no
more than what that one had lost: it skips what was parsed or skipped, drops nothing else, drops
again what was not lost, and its graph says the same of all files but those lost. If no file was
lost nothing is parsed, the same files are dropped, and the graph is the same. -/
structure Analysis.Repeats (a' a : Analysis) (p : Provider) (d : Disk) (root : Path) : Prop where
  discovered : a'.stats.filesDiscovered = a.stats.filesDiscovered
  skipped : a'.stats.filesSkipped = a.stats.filesParsed + a.stats.filesSkipped
  retried : a'.stats.filesParsed + a'.stats.filesFailed = a.stats.filesFailed
  errors : ∀ e' ∈ a'.errors, ∃ e ∈ a.errors, e.path = e'.path
  again : ∀ e ∈ a.errors, ¬Scan.Loses p d a.errors e.path → ∃ e' ∈ a'.errors, e'.path = e.path
  facts : ∀ k, (∀ q, Scan.Loses p d a.errors q → q.relativeTo root ≠ k) →
    a'.graph.shareOf k = a.graph.shareOf k
  same : (∀ q, ¬Scan.Loses p d a.errors q) →
    a'.stats.filesParsed = 0 ∧ a'.stats.bytesParsed = 0 ∧
      (a'.errors.map FileError.path).Perm (a.errors.map FileError.path) ∧ a'.graph.SameFacts a.graph

section

variable {s s₂ : Session} {m m₂ : Machine} {p : Provider} {d d₂ : Disk} {mode : ScanMode}
  {loc : Location} {es es₂ : List (Bytes × Item)} {r r₂ : PoolResult} {st st₂ : ScanStats}
  {parse : Path → Except IoError Bytes → Attempt}

theorem Session.Scans.repeats (h : s.Scans m p d mode loc es r st) (ho : s.InOrder loc)
    (hs : (s.analyze m p d mode).session.Resumes s₂ loc) (hd : d.SameScripts d₂ (pathOf loc))
    (hp : p.DependsOnFile parse) (h₂ : s₂.Scans m₂ p d₂ .incremental loc es₂ r₂ st₂)
    (now now₂ : UInt64) :
    Analysis.Repeats
      ⟨.ofFiles now₂ (s₂.analyze m₂ p d₂ .incremental).session.table.values, st₂, r₂.errors⟩
      ⟨.ofFiles now (s.analyze m p d mode).session.table.values, st, r.errors⟩
      p d (pathOf loc) := by
  have hkeyed := h.keyed ho.keyed
  have hkeyed₂ := h₂.keyed hs.keyed
  obtain ⟨hfound, hskipped, hretried⟩ := h.counts_resumed ho hs hd h₂
  have hagain : ∀ e ∈ r.errors, ¬Scan.Loses p d r.errors e.path →
      ∃ e' ∈ r₂.errors, e'.path = e.path := by
    intro e he hkept
    have hdue : Scan.job (pathOf loc) e.path ∈ Project.due d₂ loc .incremental s₂.ledger := by
      rw [h.due_resumed ho hs hd]
      have hmem : e.path ∈ r.errors.map FileError.path := List.mem_map.2 ⟨e, he, rfl⟩
      exact List.mem_map.2
        ⟨e.path, List.mem_filter.2 ⟨h.script_of_error he, decide_eq_true hmem⟩, rfl⟩
    rcases List.mem_append.1 (h₂.answers.once.mem_iff.2 hdue) with hparsed | herror
    · obtain ⟨f, hf, hjob⟩ := List.mem_map.1 hparsed
      have hpath : f.path = e.path := congrArg Job.path hjob
      exact absurd (hpath ▸ h.loses_of_parsed ho hs hd hp h₂ hf) hkept
    · obtain ⟨e', he', hjob⟩ := List.mem_map.1 herror
      exact ⟨e', he', congrArg Job.path hjob⟩
  have herrors : ∀ e' ∈ r₂.errors, ∃ e ∈ r.errors, e.path = e'.path := by
    intro e' he'
    obtain ⟨e, he, hjob, -⟩ := h.error_of_due ho hs hd
      (h₂.answers.once.mem_iff.1 (List.mem_append_right _ (List.mem_map.2 ⟨e', he', rfl⟩)))
    exact ⟨e, he, congrArg Job.path hjob⟩
  refine ⟨hfound, hskipped, hretried, herrors, hagain, fun k hk => ?_, fun hnone => ?_⟩
  · have hshare := h.facts_resumed ho hs hd hp h₂ hk
    rw [hkeyed.shareOf_ofFiles, hkeyed₂.shareOf_ofFiles]
    cases hx : (s.analyze m p d mode).session.table.get? k <;>
      cases hy : (s₂.analyze m₂ p d₂ .incremental).session.table.get? k <;>
      simp_all
  · have hparsed : r₂.parsed = [] :=
      List.eq_nil_iff_forall_not_mem.2 fun f hf => hnone _ (h.loses_of_parsed ho hs hd hp h₂ hf)
    refine ⟨?_, ?_, ?_, hkeyed₂.sameFacts hkeyed _ _ fun k =>
      h.facts_resumed ho hs hd hp h₂ fun q hq => absurd hq (hnone q)⟩
    · rw [h₂.counts]
      exact congrArg List.length hparsed
    · rw [h₂.counts]
      show List.foldl _ 0 r₂.parsed = 0
      rw [hparsed]
      rfl
    · refine (List.perm_ext_iff_of_nodup h₂.nodup_errors h.nodup_errors).2 fun q => ?_
      rw [List.mem_map, List.mem_map]
      refine ⟨fun ⟨e', he', hpath⟩ => ?_, fun ⟨e, he, hpath⟩ => ?_⟩
      · obtain ⟨e, he, hsame⟩ := herrors e' he'
        exact ⟨e, he, hsame.trans hpath⟩
      · obtain ⟨e', he', hsame⟩ := hagain e he (hnone _)
        exact ⟨e', he', hsame.trans hpath⟩

/-- After an analysis a session is used again, or what it has stored is restored by a new one, which
is opened while the stored files are as they were. -/
inductive Session.GoesOn (before : Report) (a : Analysis) (loc : Location) : Session → Prop
  | same : GoesOn before a loc before.session
  | reopened {d : Disk} {root : Path} {o : SessionOptions} {s : Session} {g : SizedGraph}
      (persists : before.session.options.persist = true) (graph : a.graph = g.toGraph)
      (kept : ∀ name ∈ [Store.graphFile, Ledger.fileName], ∀ b,
        before.disk.Stores loc name b → d.Stores loc name b)
      (opens : Session.open d root o = .ok s) (here : s.root = pathOf loc)
      (restores : o.persist = true) : GoesOn before a loc s

theorem Session.GoesOn.resumes {a : Analysis} (h : GoesOn (s.analyze m p d mode) a loc s₂)
    (ho : s.InOrder loc) (hd : d.Tidy loc) (hm : m.Fair) (hp : p.ReadsOnly)
    (hok : (s.analyze m p d mode).result = .ok a) :
    (s.analyze m p d mode).session.Resumes s₂ loc := by
  have hafter := ho.analyze hd hm hp mode
  cases h with
  | same => exact hafter.resumes
  | reopened persists sized kept opens here restores =>
    obtain ⟨es, r, st, hscan⟩ := scans_of_ok hd ho.root hm hp hok
    cases (analyze_stores hd ho.root hm hp mode).2 with
    | nothing unstored =>
      rw [options_analyze] at persists
      unfold graphStored at unstored
      rw [hok, persists] at unstored
      cases unstored
    | graphOnly e failure =>
      rw [hok] at failure
      cases failure
    | both _ _ _ graph ledger =>
      rw [hscan.result_ok hok] at sized
      exact resumes_of_open hafter hd.isName hd.isText sized (kept _ (by simp) _ graph)
        (kept _ (by simp) _ ledger) opens here restores

end

/-! ### Projects at a fixed place -/

/-- A first analysis of a project that has no state yet leaves all in order for a second one. -/
theorem Session.analyze_holding {es : List (Bytes × Item)} {m : Machine} {p : Provider}
    (h : es.lookup Store.stateFolder = none) (hnamed : Discovery.Named (outside es))
    (hm : m.Fair) (hrefusal : ∀ path step, m.refusal path step = none) (hp : p.ReadsOnly)
    (hinit : p.init = .ok ()) (o : SessionOptions) (mode : ScanMode) :
    let d := holding es
    d.Tidy ["p"] ∧ ∃ s a, Session.open d (pathOf ["p"]) o = .ok s ∧ s.InOrder ["p"] ∧
      (s.analyze m p d mode).result = .ok a ∧
      let next := s.analyze m p d mode
      next.disk.Tidy ["p"] ∧ Storable next.disk ["p"] ∧
        Scan.resolveRoot next.disk (pathOf ["p"]) = .ok (pathOf ["p"]) ∧
        d.SameScripts next.disk (pathOf ["p"]) := by
  intro d
  obtain ⟨⟨hready, hstorable⟩, -⟩ := unstored_holding es h
  have hd : d.Tidy ["p"] := tidy_holding hready hnamed
  have hresolve : Scan.resolveRoot d (pathOf ["p"]) = .ok (pathOf ["p"]) := resolveRoot_holding es
  obtain ⟨s, hs⟩ := exists_open hresolve o
  have hroot : s.root = pathOf ["p"] := root_eq_of_open hs hresolve
  obtain ⟨a, ha⟩ := exists_analysis hd hroot hm hp hresolve hinit
    (fun _ => ⟨hstorable, hrefusal⟩) mode
  obtain ⟨_, _, _, hscan⟩ := scans_of_ok hd hroot hm hp ha
  obtain ⟨hready', houtside, -⟩ := hscan.stores hready hroot
  obtain ⟨_, _, hat', -⟩ := houtside _ _ rfl
  have hresolve' : Scan.resolveRoot (s.analyze m p d mode).disk (pathOf ["p"]) =
      .ok (pathOf ["p"]) := resolveRoot_pathOf (by simp) hd.isName hat' (by decide)
  exact ⟨hd, s, a, hs, .of_open hs hd.isName hd.isText hroot, ha,
    hd.of_sameOutside hscan.project houtside hready', hscan.storable hready hroot hstorable,
    hresolve', hscan.sameScripts hd hroot hresolve'⟩

/-! ### Unchanged projects -/

/-- If no script changes after an analysis, the next incremental one of the same session, or of one
that restores its state, tries exactly the dropped files again. Whatever it parses had been lost to
the crash of another file; so without crashes it parses nothing, and has the same result. -/
theorem unchanged_tree_is_not_parsed_again {loc : Location} {d d₂ : Disk} {events : List Event}
    {i : Nat} {lv : Live} {m m₂ : Machine} {p : Provider}
    {parse : Path → Except IoError Bytes → Attempt} {mode : ScanMode} {a : Analysis} {s₂ : Session}
    (hd : d.Tidy loc) (hevents : World.Along (Orderly loc) (.start d) events)
    (hlive : ((World.start d).run events).live[i]? = some lv) (hm : m.Fair)
    (hp : p.DependsOnFile parse)
    (hok : (lv.session.analyze m p ((World.start d).run events).disk mode).result = .ok a)
    (hnext :
      Session.GoesOn (lv.session.analyze m p ((World.start d).run events).disk mode) a loc s₂)
    (hsame : ((World.start d).run events).disk.SameScripts d₂ (pathOf loc)) (hd₂ : d₂.Tidy loc)
    (hroot : Scan.resolveRoot d₂ (pathOf loc) = .ok (pathOf loc)) (hm₂ : m₂.Fair) :
    let before := ((World.start d).run events).disk
    Scan.jobs d₂ .incremental s₂.ledger s₂.root (d₂.scripts s₂.root) =
        Scan.retries before (pathOf loc) a.errors ∧
      ((∀ q ∈ before.scripts (pathOf loc), ∀ c, parse q (before.read q) ≠ .crashed c) →
        ∀ q, ¬Scan.Loses p before a.errors q) ∧
      ∃ a₂ : Analysis, a₂.Repeats a p before (pathOf loc) ∧
        (∀ a', (s₂.analyze m₂ p d₂ .incremental).result = .ok a' → a' = a₂) ∧
        ((s₂.options.persist = true →
            Session.Storable d₂ loc ∧ ∀ path step, m₂.refusal path step = none) →
          (s₂.analyze m₂ p d₂ .incremental).result = .ok a₂) := by
  intro before
  have hord := World.inOrder_run hd hevents
  have ho := hord.live lv (List.mem_of_getElem? hlive)
  obtain ⟨es, r, st, hscan⟩ := Session.scans_of_ok hord.tidy ho.root hm hp.readsOnly hok
  have hs := hnext.resumes ho hord.tidy hm hp.readsOnly hok
  obtain ⟨-, hinit⟩ := Session.resolves_of_analyze_ok hok
  obtain ⟨es₂, st₂, hscan₂⟩ :=
    Session.scans_of_resolves hd₂ hs.root hm₂ hp.readsOnly .incremental hroot hinit
  obtain rfl := hscan.result_ok hok
  refine ⟨?_, fun hcrash q => hscan.not_loses hp hcrash, _,
    hscan.repeats ho hs hsame hp hscan₂ before.now d₂.now, fun a' ha' => hscan₂.result_ok ha',
    fun hstore => ?_⟩
  · rw [hs.root]
    exact hscan.due_resumed ho hs hsame
  · obtain ⟨a₂, ha₂⟩ := Session.exists_analysis hd₂ hs.root hm₂ hp.readsOnly hroot hinit hstore
      .incremental
    rw [ha₂, hscan₂.result_ok ha₂]

/-- Of two scripts one cannot be parsed. A new session leaves alone the other one. -/
theorem unchanged_tree_is_not_parsed_again_after_failure :
    let parse : Path → Except IoError Bytes → Attempt := fun _ contents =>
      if contents.toOption = some [2] then .failed (.parse ⟨1, "unexpected end"⟩)
      else .parsed .declaring
    let p := Provider.reading parse
    let m := Machine.willing
    let scripts : List (Bytes × Item) :=
      [("a.gd", .file [1] 1000000), ("b.gd", .file [2] 2000000)]
    let d := holding scripts
    let events := [.open (pathOf ["p"]) {}]
    d.Tidy ["p"] ∧ World.Along (Orderly ["p"]) (.start d) events ∧ m.Fair ∧ p.DependsOnFile parse ∧
      ∃ lv a s₂, ((World.start d).run events).live[0]? = some lv ∧
        (lv.session.analyze m p d .full).result = .ok a ∧
        let first := lv.session.analyze m p d .full
        Session.open first.disk (pathOf ["p"]) {} = .ok s₂ ∧ Session.GoesOn first a ["p"] s₂ ∧
          d.SameScripts first.disk (pathOf ["p"]) ∧ first.disk.Tidy ["p"] ∧
          Scan.resolveRoot first.disk (pathOf ["p"]) = .ok (pathOf ["p"]) ∧
          ∃ a₂, (s₂.analyze m p first.disk .incremental).result = .ok a₂ ∧
            a₂.stats.filesParsed = 0 ∧
            (a₂.errors.map FileError.path).Perm (a.errors.map FileError.path) ∧
            a₂.graph.SameFacts a.graph := by
  intro parse p m scripts d events
  have hm : m.Fair := Machine.fair_willing
  have hnamed : Discovery.Named (outside scripts) := .of_names (by decide) (by decide)
  have hp : p.DependsOnFile parse := Provider.dependsOnFile_reading parse
  obtain ⟨hd, s, a, hs, ho, ha, hd', hstorable', hresolve', hsame⟩ := Session.analyze_holding
    (show scripts.lookup _ = none from rfl) hnamed hm (fun _ _ => rfl) hp.readsOnly rfl {} .full
  have hresolve : Scan.resolveRoot d (pathOf ["p"]) = .ok (pathOf ["p"]) := resolveRoot_holding _
  have hevents : World.Along (Orderly ["p"]) (.start d) events :=
    ⟨fun r hr => Except.ok.inj (hr.symm.trans hresolve), trivial⟩
  have hrun : (World.start d).run events = ⟨d, [⟨s, s.ledger.agreeing .empty⟩], .empty⟩ :=
    World.run_start_open hs []
  have hlive : ((World.start d).run events).live[0]? = some ⟨s, s.ledger.agreeing .empty⟩ := by
    rw [hrun]
    rfl
  have hdisk : ((World.start d).run events).disk = d := by rw [hrun]
  obtain ⟨s₂, hs₂⟩ := Session.exists_open hresolve' {}
  have hoptions := (Session.root_of_open hs).2
  have hbelow : Discovery.below true scripts = ([["a.gd"], ["b.gd"]] : List Location) := by
    decide +kernel
  have hscripts : d.scripts (pathOf ["p"]) = [pathOf ["p", "a.gd"], pathOf ["p", "b.gd"]] :=
    scripts_holding hnamed hbelow (by decide +kernel)
  let ja := Scan.job (pathOf ["p"]) (pathOf ["p", "a.gd"])
  let jb := Scan.job (pathOf ["p"]) (pathOf ["p", "b.gd"])
  have hia : d.item ja.path = .ok (.file [1] 1000000) := item_holding rfl (by decide) (by decide)
  have hib : d.item jb.path = .ok (.file [2] 2000000) := item_holding rfl (by decide) (by decide)
  obtain ⟨fa, hfa, hscript, hrelative⟩ : ∃ f, Pool.outcomeOn p d ja = .ok (.parsed f) ∧
      f.script = Script.declaring ∧ f.relativePath = ja.relativePath :=
    ⟨_, hp.outcomeOn_of_parse hia (by rw [Disk.read, hia]; rfl), rfl, rfl⟩
  obtain ⟨eb, heb⟩ : ∃ e, Pool.outcomeOn p d jb = .ok (.failed e) :=
    ⟨_, hp.outcomeOn_of_failure hib (by rw [Disk.read, hib]; rfl)⟩
  have hsized : a.graph.metadata.fits = true := by
    have hparsed : (Scan.resultOn m s.options.scan (Pool.outcomeOn p d) [ja, jb]).parsed =
        [fa] := by
      unfold Scan.resultOn Pool.ownMessage
      rw [hoptions, if_pos (by decide), List.map_cons, List.map_cons, hfa, heb]
      rfl
    have hgraph := congrArg Analysis.graph ((project_holding hnamed).full_analysis hm ho.root
      hresolve rfl (Pool.fixed_outcomeOn (hp.readsOnly d) _) ha).2
    rw [Project.due_full, hscripts] at hgraph
    rw [hgraph]
    show (Graph.ofFiles d.now (SortedMap.ofList (Session.extracted (Scan.resultOn m s.options.scan
      (Pool.outcomeOn p d) [ja, jb]).parsed)).values).metadata.fits = true
    rw [hparsed, Session.extracted, List.map_singleton, hscript, hrelative]
    decide +kernel
  have hnext : Session.GoesOn (s.analyze m p d .full) a ["p"] s₂ := by
    refine .reopened (g := ⟨a.graph, hsized⟩) ?_ rfl (fun _ _ _ h => h) hs₂
      (Session.root_eq_of_open hs₂ hresolve') rfl
    rw [Session.options_analyze, hoptions]
  obtain ⟨-, hcalm, a₂, hrepeats, -, ha₂⟩ :=
    unchanged_tree_is_not_parsed_again hd hevents hlive hm hp (hdisk ▸ ha) (hdisk ▸ hnext)
      (hdisk ▸ hsame) hd' hresolve' hm
  obtain ⟨hzero, -, herrors, hfacts⟩ := hrepeats.same (hcalm fun q hq c => by
    intro hc
    simp only [parse] at hc
    split at hc <;> cases hc)
  exact ⟨hd, hevents, hm, hp, _, a, s₂, hlive, ha, hs₂, hnext, hsame, hd', hresolve', a₂,
    ha₂ fun _ => ⟨hstorable', fun _ _ => rfl⟩, hzero, herrors, hfacts⟩

/-- One of three scripts crashes the parser and takes down the second one, which the next analysis
parses. -/
theorem lost_file_is_parsed_again :
    let parse : Path → Except IoError Bytes → Attempt := fun _ contents =>
      if contents.toOption = some [1] then .crashed .silent else .parsed .declaring
    let p := Provider.reading parse
    let m := Machine.willing
    let scripts : List (Bytes × Item) :=
      [("a.gd", .file [1] 1000000), ("b.gd", .file [2] 2000000), ("c.gd", .file [3] 3000000)]
    let d := holding scripts
    d.Tidy ["p"] ∧ m.Fair ∧ p.DependsOnFile parse ∧
      ∃ s a a₂, Session.open d (pathOf ["p"]) ⟨⟨0, some 2⟩, true⟩ = .ok s ∧
        (s.analyze m p d .full).result = .ok a ∧
        let next := s.analyze m p d .full
        d.SameScripts next.disk (pathOf ["p"]) ∧
          (next.session.analyze m p next.disk .incremental).result = .ok a₂ ∧
          a.stats.filesFailed = 2 ∧ a₂.stats.filesParsed = 1 ∧ a₂.stats.filesFailed = 1 := by
  intro parse p m scripts d
  have hm : m.Fair := Machine.fair_willing
  have hnamed : Discovery.Named (outside scripts) := .of_names (by decide) (by decide)
  have hp : p.DependsOnFile parse := Provider.dependsOnFile_reading parse
  obtain ⟨hd, s, a, hs, ho, ha, hd', hstorable', hresolve', hsame⟩ := Session.analyze_holding
    (show scripts.lookup _ = none from rfl) hnamed hm (fun _ _ => rfl) hp.readsOnly rfl
    ⟨⟨0, some 2⟩, true⟩ .full
  have ho' := ho.analyze hd hm hp.readsOnly .full
  have hoptions := (Session.root_of_open hs).2
  obtain ⟨es, st, hscan⟩ :=
    Session.scans_of_resolves hd ho.root hm hp.readsOnly .full (resolveRoot_holding _) rfl
  obtain ⟨es₂, st₂, hscan₂⟩ :=
    Session.scans_of_resolves hd' ho'.root hm hp.readsOnly .incremental hresolve' rfl
  obtain ⟨a₂, ha₂⟩ := Session.exists_analysis hd' ho'.root hm hp.readsOnly hresolve' rfl
    (fun _ => ⟨hstorable', fun _ _ => rfl⟩) .incremental
  obtain ⟨-, hfailed, -⟩ := hscan.counts_eq
  obtain ⟨-, -, hretried⟩ := hscan.counts_resumed ho ho'.resumes hsame hscan₂
  have hcounts := hscan₂.counts
  have hbelow :
      Discovery.below true scripts = ([["a.gd"], ["b.gd"], ["c.gd"]] : List Location) := by
    decide +kernel
  have hscripts : d.scripts (pathOf ["p"]) =
      [pathOf ["p", "a.gd"], pathOf ["p", "b.gd"], pathOf ["p", "c.gd"]] :=
    scripts_holding hnamed hbelow (by decide +kernel)
  let ja := Scan.job (pathOf ["p"]) (pathOf ["p", "a.gd"])
  let jb := Scan.job (pathOf ["p"]) (pathOf ["p", "b.gd"])
  let jc := Scan.job (pathOf ["p"]) (pathOf ["p", "c.gd"])
  have hia : d.item ja.path = .ok (.file [1] 1000000) := item_holding rfl (by decide) (by decide)
  have hib : d.item jb.path = .ok (.file [2] 2000000) := item_holding rfl (by decide) (by decide)
  have hic : d.item jc.path = .ok (.file [3] 3000000) := item_holding rfl (by decide) (by decide)
  have hca : Pool.outcomeOn p d ja = .error .silent :=
    hp.outcomeOn_of_crash hia (by rw [Disk.read, hia]; rfl)
  obtain ⟨fb, hfb⟩ : ∃ f, Pool.outcomeOn p d jb = .ok (.parsed f) :=
    ⟨_, hp.outcomeOn_of_parse hib (by rw [Disk.read, hib]; rfl)⟩
  obtain ⟨fc, hfc⟩ : ∃ f, Pool.outcomeOn p d jc = .ok (.parsed f) :=
    ⟨_, hp.outcomeOn_of_parse hic (by rw [Disk.read, hic]; rfl)⟩
  let failure := fun j => Pool.crashed (Pool.workerMessage m.crashText [] .silent) j
  -- at first two workers share three files, so the second file is lost
  have hr : Scan.resultOn m s.options.scan (Pool.outcomeOn p d)
      (Project.due d ["p"] .full s.ledger) =
      (Pool.ofMessages [.failed (failure ja), .failed (failure jb), .parsed fc]).sorted := by
    rw [hoptions, Project.due_full, hscripts]
    exact Scan.resultOn_of_crash [jb] le_rfl rfl rfl hca hfc
  rw [hr] at hscan hfailed
  have hjobs : Project.due (s.analyze m p d .full).disk ["p"] .incremental
      (s.analyze m p d .full).session.ledger = [ja, jb] := by
    rw [hscan.due_resumed ho ho'.resumes hsame]
    unfold Scan.retries
    rw [hscripts]
    have hmem : ∀ q, q ∈ (Pool.ofMessages [.failed (failure ja), .failed (failure jb),
        .parsed fc]).sorted.errors.map FileError.path ↔ q ∈ [ja.path, jb.path] := fun q =>
      ((List.mergeSort_perm _ _).map _).mem_iff
    simp only [hmem]
    rfl
  -- then they share those two
  have hown : ∀ q ∈ d.scripts (pathOf ["p"]), Pool.outcomeOn p (s.analyze m p d .full).disk
      (Scan.job (pathOf ["p"]) q) = Pool.outcomeOn p d (Scan.job (pathOf ["p"]) q) := fun q hq =>
    hp.outcomeOn_congr (hsame.item q hq)
  have hr₂ : Scan.resultOn m (s.analyze m p d .full).session.options.scan
      (Pool.outcomeOn p (s.analyze m p d .full).disk) [ja, jb] =
      (Pool.ofMessages [.failed (failure ja), .parsed fb]).sorted := by
    rw [Session.options_analyze, hoptions]
    refine Scan.resultOn_of_crash (c := .silent) [] (by simp) rfl rfl ?_ ?_
    · rw [← hca]
      exact hown _ (by rw [hscripts]; simp)
    · rw [← hfb]
      exact hown _ (by rw [hscripts]; simp)
  rw [hjobs, hr₂] at hcounts
  have hlost : st.filesFailed = 2 := by
    rw [hfailed]
    exact List.length_mergeSort _
  have hparsed : st₂.filesParsed = 1 := by
    rw [hcounts]
    exact List.length_mergeSort _
  have hagain : st₂.filesFailed = 1 := by omega
  refine ⟨hd, hm, hp, s, a, a₂, hs, ha, hsame, ha₂, ?_⟩
  rw [hscan.result_ok ha, hscan₂.result_ok ha₂]
  exact ⟨hlost, hparsed, hagain⟩

end SignalAtlas
