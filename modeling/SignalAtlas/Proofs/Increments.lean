import Mathlib.Tactic
import SignalAtlas.Proofs.Upkeep

/-!
# Incremental analyses

An incremental analysis parses the files that its ledger does not know in their present state, and
leaves the facts of the others as they are.

* `Setting.equalsFull`: it gives what a full analysis gives if its session holds the present facts
  of all that the ledger lets pass (`Setting.Current`);
* `World.Matched`, kept as long as no analysis stores a graph without its ledger: the ledgers list
  nothing that is not in the books;
* `incremental_analysis_equals_full`: in such a history every incremental analysis is as good as a
  full one.
-/

namespace SignalAtlas

open Disk

/-! ### An incremental analysis beside a full one -/

namespace Setting

variable {S : Setting} {d : Disk} {s s' : Session} {m m' : Machine} {p : Provider}
  {mode mode' : ScanMode} {es es' : List (Bytes × Item)} {r r' : PoolResult} {st st' : ScanStats}
  {q : Path} {t t' : SortedMap String FileSignals}

/-- A table holds the present facts of all scripts that a ledger lets pass. -/
def Current (S : Setting) (d : Disk) (l : Ledger) (t : SortedMap String FileSignals) : Prop :=
  ∀ q ∈ d.scripts (pathOf S.loc), l.isStale d q = false →
    ∃ sc, S.parse q (d.read q) = .parsed sc ∧
      (t.get? (q.relativeTo (pathOf S.loc))).map FileSignals.share =
        some (sc.extract (q.relativeTo (pathOf S.loc))).share

/-- How a script stands after an analysis: the table holds the facts that parsing gives, or the
script was dropped and the table holds nothing. -/
inductive Stands (S : Setting) (d : Disk) (p : Provider) (r : PoolResult)
    (t : SortedMap String FileSignals) (q : Path) : Prop
  | shown (f : ParsedFile)
      (own : Pool.outcomeOn p d (Scan.job (pathOf S.loc) q) = .ok (.parsed f))
      (undropped : ∀ e ∈ r.errors, e.path ≠ q)
      (table : (t.get? (q.relativeTo (pathOf S.loc))).map FileSignals.share =
        some (f.script.extract (q.relativeTo (pathOf S.loc))).share)
  | dropped (e : FileError) (mem : e ∈ r.errors) (job : e.job = Scan.job (pathOf S.loc) q)
      (table : t.get? (q.relativeTo (pathOf S.loc)) = none)

theorem stands_of_scans (h : s.Scans m p d mode S.loc es r st) (hp : p.DependsOnFile S.parse)
    (hcurrent : mode = .full ∨ S.Current d s.ledger s.table)
    (hq : q ∈ d.scripts (pathOf S.loc)) :
    S.Stands d p r (s.analyze m p d mode).session.table q := by
  rw [h.state]
  cases h.project.fate h.answers hq with
  | parsed f mem job undropped table =>
    refine .shown f ?_ undropped (by rw [table]; rfl)
    rw [← job]
    exact h.answers.own f mem
  | dropped e mem job table => exact .dropped e mem job table
  | kept job undropped table =>
    -- a file that is not due is fresh, so the table had its present facts already
    have hdue : ¬(mode = .full ∨ s.ledger.isStale d q = true) := fun hd =>
      job (Project.mem_jobs.2 ⟨q, hq, hd, rfl⟩)
    obtain ⟨hmode, hfresh⟩ := not_or.1 hdue
    rw [Bool.not_eq_true] at hfresh
    obtain ⟨-, it, -, -, hi, -⟩ := Ledger.isStale_eq_false_iff.1 hfresh
    obtain ⟨sc, hparse, hshare⟩ := hcurrent.resolve_left hmode q hq hfresh
    refine .shown _ (hp.outcomeOn_of_parse hi hparse) undropped ?_
    rw [table, hshare]

/-- A script stands the same after two analyses that lose the same files. -/
theorem Stands.share_eq
    (h : S.Stands d p r t q) (h' : S.Stands d p r' t' q)
    (hlost : Scan.Loses p d r.errors q ↔ Scan.Loses p d r'.errors q) :
    (t.get? (q.relativeTo (pathOf S.loc))).map FileSignals.share =
      (t'.get? (q.relativeTo (pathOf S.loc))).map FileSignals.share := by
  have hpath : ∀ {e : FileError}, e.job = Scan.job (pathOf S.loc) q → e.path = q := fun hj =>
    congrArg Job.path hj
  cases h with
  | shown f own undropped table =>
    cases h' with
    | shown f' own' undropped' table' =>
      rw [own] at own'
      cases own'
      rw [table, table']
    | dropped e' mem' job' table' =>
      obtain ⟨e, he, heq, -⟩ := hlost.2 ⟨e', mem', hpath job', f, by rw [job', own]⟩
      exact absurd heq (undropped e he)
  | dropped e mem job table =>
    cases h' with
    | shown f' own' undropped' table' =>
      obtain ⟨e', he', heq, -⟩ := hlost.1 ⟨e, mem, hpath job, f', by rw [job, own']⟩
      exact absurd heq (undropped' e' he')
    | dropped e' mem' job' table' => rw [table, table']

/-- What two analyses say of a file is the same if both lose it or neither does. -/
theorem share_eq_of_scans (h : s.Scans m p d mode S.loc es r st)
    (h' : s'.Scans m' p d mode' S.loc es' r' st')
    (hq : ∀ q ∈ d.scripts (pathOf S.loc), S.Stands d p r (s.analyze m p d mode).session.table q)
    (hq' : ∀ q ∈ d.scripts (pathOf S.loc),
      S.Stands d p r' (s'.analyze m' p d mode').session.table q) {k : String}
    (hlost : ∀ q ∈ d.scripts (pathOf S.loc), q.relativeTo (pathOf S.loc) = k →
      (Scan.Loses p d r.errors q ↔ Scan.Loses p d r'.errors q)) :
    ((s.analyze m p d mode).session.table.get? k).map FileSignals.share =
      ((s'.analyze m' p d mode').session.table.get? k).map FileSignals.share := by
  by_cases hscript : ∃ q ∈ d.scripts (pathOf S.loc), q.relativeTo (pathOf S.loc) = k
  · obtain ⟨q, hmem, rfl⟩ := hscript
    exact (hq q hmem).share_eq (hq' q hmem) (hlost q hmem rfl)
  · have hnot : ∀ q ∈ d.scripts (pathOf S.loc), q.relativeTo (pathOf S.loc) ≠ k :=
      fun q hmem he => hscript ⟨q, hmem, he⟩
    rw [h.state, h'.state, Project.table_after_of_not_script h.answers hnot,
      Project.table_after_of_not_script h'.answers hnot]

/-- An analysis gives what a full analysis from scratch gives: of every file that both or neither of
them lose it says the same, and if there is no other file, or none that crashes the parser, the
graphs hold the same facts in the same order, and the same counts. -/
def EqualsFull (S : Setting) (d : Disk) (p : Provider) (a : Analysis) : Prop :=
  ∀ (o : ScanOptions) (m : Machine), m.Fair →
    ∃ s full, Session.open d (pathOf S.loc) ⟨o, false⟩ = .ok s ∧
      (s.analyze m p d .full).result = .ok full ∧
      (∀ k, (∀ q ∈ d.scripts (pathOf S.loc), q.relativeTo (pathOf S.loc) = k →
          (Scan.Loses p d a.errors q ↔ Scan.Loses p d full.errors q)) →
        a.graph.shareOf k = full.graph.shareOf k) ∧
      ((∀ q ∈ d.scripts (pathOf S.loc), ∀ c, S.parse q (d.read q) ≠ .crashed c) ∨
          (∀ q, Scan.Loses p d a.errors q ↔ Scan.Loses p d full.errors q) →
        Graph.SameFacts a.graph full.graph)

/-- An incremental analysis is as good as a full one if its session holds the present facts of all
that its ledger lets pass. -/
theorem equalsFull {a : Analysis} (hroot : s.root = pathOf S.loc) (hkeyed : Keyed s.table)
    (hs : S.Settled d) (hm : m.Fair) (hp : p.DependsOnFile S.parse)
    (hcurrent : S.Current d s.ledger s.table)
    (hok : (s.analyze m p d .incremental).result = .ok a) : S.EqualsFull d p a := by
  intro o m' hm'
  obtain ⟨⟨root, hresolve⟩, hinit⟩ := Session.resolves_of_analyze_ok hok
  rw [hroot] at hresolve
  obtain ⟨rfl, -⟩ := hs.tidy.project hresolve
  obtain ⟨s', hopen⟩ := Session.exists_open hresolve ⟨o, false⟩
  have hroot' : s'.root = pathOf S.loc := Session.root_eq_of_open hopen hresolve
  have hmemory : s'.options.persist = false := by rw [(Session.root_of_open hopen).2]
  obtain ⟨full, hfull⟩ := Session.exists_analysis hs.tidy hroot' hm' hp.readsOnly hresolve hinit
    (fun hpersist => by rw [hmemory] at hpersist; cases hpersist) .full
  obtain ⟨es, r, st, hscan⟩ := Session.scans_of_ok hs.tidy hroot hm hp.readsOnly hok
  obtain ⟨es', r', st', hscan'⟩ := Session.scans_of_ok hs.tidy hroot' hm' hp.readsOnly hfull
  have hkeyed₁ := hscan.keyed hkeyed
  have hkeyed₂ := hscan'.keyed (Session.keyed_of_open hopen)
  have hshare : ∀ k, _ → _ := fun k => share_eq_of_scans hscan hscan' (k := k)
    (fun q hq => stands_of_scans hscan hp (.inr hcurrent) hq)
    (fun q hq => stands_of_scans hscan' hp (.inl rfl) hq)
  refine ⟨s', full, hopen, hfull, ?_⟩
  rw [hscan.result_ok hok, hscan'.result_ok hfull]
  refine ⟨fun k hlost => ?_, fun hcond => ?_⟩
  · rw [hkeyed₁.shareOf_ofFiles, hkeyed₂.shareOf_ofFiles]
    have heq := congrArg (fun x => x.getD (FileSignals.empty k).share) (hshare k hlost)
    simpa only [Option.getD_map] using heq
  · refine hkeyed₁.sameFacts hkeyed₂ d.now d.now fun k => hshare k fun q _ _ => ?_
    rcases hcond with hcrash | hsame
    · exact iff_of_false (hscan.not_loses hp hcrash) (hscan'.not_loses hp hcrash)
    · exact hsame q

/-- Whatever a ledger lets pass is in the books. -/
def Backed (S : Setting) (d : Disk) (l known : Ledger) : Prop :=
  ∀ q ∈ d.scripts (pathOf S.loc), l.isStale d q = false → known.get? q = l.get? q

/-- With true books that cover whatever its ledger lets pass, a session holds the present facts. -/
theorem LiveSound.current {lv : Live} (h : S.LiveSound lv) (hs : S.Settled d)
    (hproject : Project d S.loc es) (hbacked : S.Backed d lv.session.ledger lv.known) :
    S.Current d lv.session.ledger lv.session.table := by
  intro q hq hfresh
  obtain ⟨e, it, he, -, hi, hmtime⟩ := Ledger.isStale_eq_false_iff.1 hfresh
  obtain ⟨names, hmem, rfl⟩ := hproject.mem_scripts.1 hq
  have hproper := (hproject.file_of_mem hmem).1
  obtain ⟨f, hf, sc, hparse, hshare⟩ :=
    h.vouched names hproper e ((hbacked _ hq hfresh).trans he)
  rw [← hmtime, ← hs.read hproject hmem hi] at hparse
  refine ⟨sc, hparse, ?_⟩
  rw [hproper.relativeTo S.isName, hf, ← hshare]
  rfl

end Setting

/-! ### Ledgers that match the books -/

/-- A ledger lists nothing that another one under the same schema does not list. -/
structure Ledger.Sub (l k : Ledger) : Prop where
  version : l.schemaVersion = k.schemaVersion
  entry : ∀ q e, l.get? q = some e → k.get? q = some e

namespace Ledger.Sub

variable {l k : Ledger}

theorem record (h : l.Sub k) (files : List ParsedFile) :
    (Scan.record l files).Sub (Scan.record k files) := by
  refine ⟨?_, fun q e he => ?_⟩
  · rw [Scan.schemaVersion_record, Scan.schemaVersion_record, h.version]
  · unfold Ledger.get? at he ⊢
    rw [Scan.entries_record, SortedMap.get?_insertAll, Option.or_eq_some_iff] at he ⊢
    rw [← h.version]
    rcases he with he | ⟨hnone, he⟩
    · exact .inl he
    · exact .inr ⟨hnone, h.entry q e he⟩

theorem after (h : l.Sub k) (d : Disk) (loc : Location) (r : PoolResult) (st : ScanStats)
    (s : Session) :
    (Project.after d loc l r st s).ledger.Sub (Project.after d loc k r st s).ledger := by
  have hrecord := h.record r.parsed
  refine ⟨?_, fun q e he => ?_⟩
  · unfold Project.after
    rw [Session.schemaVersion_absorb, Session.schemaVersion_absorb, hrecord.version]
  · unfold Project.after at he ⊢
    rw [Session.get?_ledger_absorb] at he ⊢
    split
    · next hdropped =>
      rw [if_pos hdropped] at he
      cases he
    · next hdropped =>
      rw [if_neg hdropped] at he
      split
      · next hthere =>
        rw [if_pos hthere] at he
        exact hrecord.entry q e he
      · next hthere =>
        rw [if_neg hthere] at he
        cases he

theorem agreeing (h : ∀ q e, l.get? q = some e → k.get? q = some e) : l.Sub (l.agreeing k) :=
  ⟨rfl, fun q e he => Ledger.get?_agreeing.2 ⟨he, h q e he⟩⟩

theorem backed {S : Setting} {d : Disk} (h : l.Sub k) : S.Backed d l k := by
  intro q _ hfresh
  obtain ⟨e, -, he, -⟩ := Ledger.isStale_eq_false_iff.1 hfresh
  rw [he, h.entry q e he]

end Ledger.Sub

namespace World

/-- No ledger, of a session or stored, lists anything that is not in the books. -/
structure Matched (S : Setting) (w : World) : Prop where
  live : ∀ lv ∈ w.live, lv.session.ledger.Sub lv.known
  stored : ∀ b time, w.disk.stored S.loc Ledger.fileName = some (.file b time) →
    ∃ l : Ledger, b = Text.bytes l.toJson.pretty ∧
      ∀ q e, l.get? q = some e → w.known.get? q = some e

variable {S : Setting} {w : World}

theorem matched_start {d : Disk}
    (hnew : ∀ name b time, d.stored S.loc name ≠ some (.file b time)) : (start d).Matched S :=
  ⟨nofun, fun b time hb => absurd hb (hnew _ b time)⟩

theorem Matched.change {d : Disk} (h : w.Matched S) (ha : S.Admits w (.change d)) :
    (w.step (.change d)).Matched S := by
  refine ⟨h.live, fun b time hb => ?_⟩
  obtain ⟨time', hb'⟩ := ha.2 _ b time hb
  exact h.stored b time' hb'

theorem Matched.restored {s : Session} {root : Path} {o : SessionOptions} (h : w.Matched S)
    (hsound : w.Sound S) (hs : Session.open w.disk root o = .ok s)
    (hroot : s.root = pathOf S.loc) :
    ∀ q e, s.ledger.get? q = some e → w.known.get? q = some e := by
  intro q e he
  obtain ⟨g, -, hledger, -⟩ := Session.restored_of_open hs he
  rw [hledger, hroot] at he
  obtain ⟨b, time, entries, hb, hentries, he⟩ :=
    Ledger.stored_of_load S.isName (hsound.settled.linkFree _) he
  obtain ⟨l, rfl, hsub⟩ := h.stored b time hb
  rw [Ledger.entries?_toJson] at hentries
  cases hentries
  exact hsub q e he

theorem Matched.open {root : Path} {o : SessionOptions} (h : w.Matched S) (hsound : w.Sound S)
    (ha : S.Admits w (.open root o)) : (w.step (.open root o)).Matched S := by
  unfold step
  cases hs : Session.open w.disk root o with
  | error e =>
    simp only [hs]
    exact h
  | ok s =>
    have hroot : s.root = pathOf S.loc := ha _ (Session.root_of_open hs).1
    simp only [hs]
    refine ⟨fun lv hlv => ?_, h.stored⟩
    rcases List.mem_append.1 hlv with hlv | hlv
    · exact h.live lv hlv
    · rw [List.mem_singleton] at hlv
      subst hlv
      exact .agreeing (h.restored hsound hs hroot)

theorem Matched.analyze {i : Nat} {m : Machine} {p : Provider} {mode : ScanMode}
    (h : w.Matched S) (hsound : w.Sound S) (ha : S.Admits w (.analyze i m p mode))
    (hio : ∀ x, w.result? (.analyze i m p mode) ≠ some (.error (.io x))) :
    (w.step (.analyze i m p mode)).Matched S := by
  obtain ⟨hm, hp⟩ := ha
  unfold step
  cases hi : w.live[i]? with
  | none =>
    simp only [hi]
    exact h
  | some lv =>
    simp only [hi]
    have hmem := List.mem_of_getElem? hi
    have hlv := hsound.live lv hmem
    have hnew :
        (lv.analyze m p w.disk mode).session.ledger.Sub (lv.analyze m p w.disk mode).known := by
      rcases Setting.analyze_cases hsound.settled hlv.root hm hp mode with
        ⟨hsame, -⟩ | ⟨es, r, st, hscan⟩
      · rw [hsame]
        exact h.live lv hmem
      · rw [hscan.session, hscan.known]
        exact (h.live lv hmem).after _ _ _ _ _
    refine ⟨fun lv' hlv' => ?_, fun b time hb => ?_⟩
    · rcases List.mem_or_eq_of_mem_set hlv' with hold | rfl
      · exact h.live lv' hold
      · exact hnew
    · cases (Setting.analyze_stores hsound.settled hlv.root hm hp mode).2 with
      | nothing unstored graph ledger =>
        rw [unstored, if_neg (by simp)]
        exact h.stored b time (ledger ▸ hb)
      | graphOnly e failure stored graph ledger =>
        refine absurd ?_ (hio e)
        rw [result?, hi, Option.map_some, failure]
      | both _ _ stored graph ledger =>
        obtain ⟨-, time', hstored⟩ := ledger
        rw [hstored] at hb
        cases hb
        rw [stored, if_pos rfl]
        exact ⟨_, rfl, hnew.entry⟩

/-- No analysis stores its graph and then fails to store its ledger. -/
def LedgersStored : World → List Event → Prop
  | _, [] => True
  | w, e :: events =>
    (∀ x, w.result? e ≠ some (.error (.io x))) ∧ LedgersStored (w.step e) events

theorem Matched.step {e : Event} (h : w.Matched S) (hsound : w.Sound S) (ha : S.Admits w e)
    (hio : ∀ x, w.result? e ≠ some (.error (.io x))) : (w.step e).Matched S := by
  cases e with
  | change d => exact h.change ha
  | «open» root o => exact h.open hsound ha
  | analyze i m p mode => exact h.analyze hsound ha hio

theorem Matched.run {events : List Event} (h : w.Matched S) (hsound : w.Sound S)
    (ha : S.AdmitsAll w events) (hl : w.LedgersStored events) : (w.run events).Matched S := by
  induction events generalizing w with
  | nil => exact h
  | cons e events ih => exact ih (h.step hsound ha.1 hl.1) (hsound.step ha.1) ha.2 hl.2

end World

namespace Upkeep

variable (U : Upkeep)

/-- The first session and one that is opened on what it has stored can analyse the changed project,
and nothing in their history is against the assumptions. -/
theorem reopened :
    let S := Setting.clocked U.parse
    let events := U.events ++ [.open (pathOf ["p"]) ⟨U.scan, true⟩]
    S.AdmitsAll (.start (holding U.before)) events ∧
      (World.start (holding U.before)).LedgersStored events ∧
      ((World.start (holding U.before)).run events).disk = U.changed ∧
      ∃ s, Session.open U.changed (pathOf ["p"]) ⟨U.scan, true⟩ = .ok s ∧
        ((World.start (holding U.before)).run events).live =
          [U.first, ⟨s, s.ledger.agreeing U.first.known⟩] := by
  intro S events
  have hm := Machine.fair_willing
  obtain ⟨s, hs⟩ := Session.exists_open (resolveRoot_holding _ : Scan.resolveRoot U.changed _ = _)
    ⟨U.scan, true⟩
  obtain ⟨⟨a, ha⟩, -⟩ := U.first_stores
  have hstep := World.step_open (w := .start (holding U.before)) U.opened
  have hrun : (World.start (holding U.before)).run events =
      ⟨U.changed, [U.first, ⟨s, s.ledger.agreeing U.first.known⟩], U.first.known⟩ := by
    refine (List.foldl_append ..).trans ?_
    rw [show U.events.foldl World.step _ = _ from U.run_events]
    exact World.step_open hs
  refine ⟨⟨fun r hr => Except.ok.inj (hr.symm.trans (resolveRoot_holding _)), ?_⟩, ⟨nofun, ?_⟩,
    by rw [hrun], s, hs, by rw [hrun]⟩
  · rw [hstep]
    exact ⟨⟨hm, U.dependsOnFile⟩, ⟨U.settled_changed, fun _ _ _ => U.stored_of_changed⟩,
      fun r hr => Except.ok.inj (hr.symm.trans (resolveRoot_holding _)), trivial⟩
  · rw [hstep]
    refine ⟨fun x hx => ?_, nofun, nofun, trivial⟩
    cases ha.symm.trans (Option.some.inj hx)

end Upkeep

/-! ### Whole histories -/

/-- In a history in which every analysis that stores its graph stores its ledger too, an incremental
analysis gives what a full analysis from scratch gives. -/
theorem incremental_analysis_equals_full {S : Setting} {d : Disk} {events : List Event} {i : Nat}
    {m : Machine} {p : Provider} {a : Analysis} (hd : S.Settled d)
    (hnew : ∀ name b time, d.stored S.loc name ≠ some (.file b time))
    (hadmits : S.AdmitsAll (.start d) events) (hledgers : (World.start d).LedgersStored events)
    (hm : m.Fair) (hp : p.DependsOnFile S.parse)
    (hok : ((World.start d).run events).result? (.analyze i m p .incremental) = some (.ok a)) :
    S.EqualsFull ((World.start d).run events).disk p a := by
  have hsound := World.sound_start hd hnew
  have hmatched := (World.matched_start hnew).run hsound hadmits hledgers
  replace hsound := hsound.run hadmits
  obtain ⟨lv, hi, hok⟩ := Option.map_eq_some_iff.1 hok
  have hmem := List.mem_of_getElem? hi
  have hlv := hsound.live lv hmem
  obtain ⟨⟨root, hresolve⟩, -⟩ := Session.resolves_of_analyze_ok hok
  rw [hlv.root] at hresolve
  obtain ⟨-, es, hproject⟩ := hsound.settled.tidy.project hresolve
  exact Setting.equalsFull hlv.root hlv.keyed hsound.settled hm hp
    (hlv.current hsound.settled hproject (hmatched.live lv hmem).backed) hok

/-- A session and one that is opened on what it has stored, after one script has stayed as it was,
another one has changed and a third one was added. What the scripts declare is told by their
contents. -/
theorem incremental_analysis_equals_full_after_changes :
    let parse : Path → Except IoError Bytes → Attempt := fun _ contents =>
      .parsed (if contents.toOption = some [5] then default else .declaring)
    let p := Provider.reading parse
    let S := Setting.clocked parse
    let m := Machine.willing
    let scripts : List (Bytes × Item) :=
      [("a.gd", .file [1] 1000000), ("b.gd", .file [5] 5000000)]
    let d := holding scripts
    S.Settled d ∧ (∀ name b time, d.stored S.loc name ≠ some (.file b time)) ∧
      ∃ events, S.AdmitsAll (.start d) events ∧ (World.start d).LedgersStored events ∧ m.Fair ∧
        p.DependsOnFile S.parse ∧ ∀ i < 2, ∃ a,
          ((World.start d).run events).result? (.analyze i m p .incremental) = some (.ok a) ∧
          S.EqualsFull ((World.start d).run events).disk p a := by
  intro parse p S m scripts d
  let scripts' : List (Bytes × Item) :=
    [("a.gd", .file [1] 1000000), ("b.gd", .file [6] 6000000), ("c.gd", .file [1] 1000000)]
  have hbelow : Discovery.below true scripts = ([["a.gd"], ["b.gd"]] : List Location) := by
    decide +kernel
  have hbelow' :
      Discovery.below true scripts' = ([["a.gd"], ["b.gd"], ["c.gd"]] : List Location) := by
    decide +kernel
  have hnew := (unstored_holding scripts rfl).2
  have hs : S.Settled d :=
    settled_holding rfl (.of_names (by decide) (by decide)) hbelow (by decide +kernel)
  have hs' : S.Settled (holding scripts') :=
    settled_holding rfl (.of_names (by decide) (by decide)) hbelow' (by decide +kernel)
  obtain ⟨session, hsession⟩ := Session.exists_open (resolveRoot_holding scripts) {}
  let U : Upkeep := ⟨parse, {}, scripts, scripts',
    List.forall_mem_cons.2 ⟨hs, List.forall_mem_singleton.2 hs'⟩,
    List.forall_mem_cons.2 ⟨rfl, List.forall_mem_singleton.2 rfl⟩, session, hsession⟩
  obtain ⟨hadmits, hledgers, hdisk, s, hopen, hlive⟩ := U.reopened
  refine ⟨hs, hnew, _, hadmits, hledgers, Machine.fair_willing, U.dependsOnFile, ?_⟩
  intro i hi
  obtain ⟨lv, hlv, hroot⟩ : ∃ lv, [U.first, ⟨s, s.ledger.agreeing U.first.known⟩][i]? = some lv ∧
      lv.session.root = pathOf ["p"] := by
    interval_cases i
    · exact ⟨_, rfl, U.root_first⟩
    · exact ⟨_, rfl, Session.root_eq_of_open hopen (resolveRoot_holding _)⟩
  obtain ⟨a, ha⟩ := U.exists_analysis hroot .incremental
  rw [← hdisk] at ha
  have hok := (World.result?_analyze (by rw [hlive, hlv])).trans (congrArg some ha)
  exact ⟨a, hok, incremental_analysis_equals_full hs hnew hadmits hledgers Machine.fair_willing
    U.dependsOnFile hok⟩

/-- A script is added whose contents crash the parser. A full analysis by one worker loses the other
script to that crash, an incremental one does not look at it. -/
theorem incremental_analysis_keeps_what_full_loses :
    let parse : Path → Except IoError Bytes → Attempt := fun _ contents =>
      if contents.toOption = some [2] then .crashed .silent else .parsed .declaring
    let p := Provider.reading parse
    let S := Setting.clocked parse
    let m := Machine.willing
    let o : ScanOptions := ⟨0, some 1⟩
    let scripts : List (Bytes × Item) := [("b.gd", .file [1] 1000000)]
    let d := holding scripts
    S.Settled d ∧ (∀ name b time, d.stored S.loc name ≠ some (.file b time)) ∧
      ∃ events, S.AdmitsAll (.start d) events ∧ (World.start d).LedgersStored events ∧ m.Fair ∧
        p.DependsOnFile S.parse ∧
        let d' := ((World.start d).run events).disk
        ∃ a s full,
          ((World.start d).run events).result? (.analyze 0 m p .incremental) = some (.ok a) ∧
          Session.open d' (pathOf S.loc) ⟨o, false⟩ = .ok s ∧
          (s.analyze m p d' .full).result = .ok full ∧ ¬Graph.SameFacts a.graph full.graph := by
  intro parse p S m o scripts d
  let scripts' : List (Bytes × Item) :=
    [("a.gd", .file [2] 2000000), ("b.gd", .file [1] 1000000)]
  have hbelow : Discovery.below true scripts = ([["b.gd"]] : List Location) := by decide +kernel
  have hbelow' : Discovery.below true scripts' = ([["a.gd"], ["b.gd"]] : List Location) := by
    decide +kernel
  have hnew := (unstored_holding scripts rfl).2
  have hnamed : Discovery.Named (outside scripts') := .of_names (by decide) (by decide)
  have hs : S.Settled d :=
    settled_holding rfl (.of_names (by decide) (by decide)) hbelow (by decide +kernel)
  have hs' : S.Settled (holding scripts') :=
    settled_holding rfl hnamed hbelow' (by decide +kernel)
  obtain ⟨session, hsession⟩ := Session.exists_open (resolveRoot_holding scripts) ⟨o, true⟩
  let U : Upkeep := ⟨parse, o, scripts, scripts',
    List.forall_mem_cons.2 ⟨hs, List.forall_mem_singleton.2 hs'⟩,
    List.forall_mem_cons.2 ⟨rfl, List.forall_mem_singleton.2 rfl⟩, session, hsession⟩
  have hm : m.Fair := Machine.fair_willing
  have hp : p.DependsOnFile parse := U.dependsOnFile
  obtain ⟨hadmits, hledgers, hdisk, _, -, hlive⟩ := U.reopened
  obtain ⟨s, hopen⟩ :=
    Session.exists_open (resolveRoot_holding _ : Scan.resolveRoot U.changed _ = _) ⟨o, false⟩
  have hroot : s.root = pathOf ["p"] := Session.root_eq_of_open hopen (resolveRoot_holding _)
  obtain ⟨a, ha⟩ := U.exists_analysis U.root_first .incremental
  obtain ⟨full, hfull⟩ := U.exists_analysis hroot .full
  refine ⟨hs, hnew, _, hadmits, hledgers, hm, hp, a, s, full, ?_⟩
  rw [World.result?, hlive, hdisk]
  refine ⟨congrArg some ha, hopen, hfull, fun hsame => ?_⟩
  let crashing := pathOf ["p", "a.gd"]
  let q := pathOf ["p", "b.gd"]
  have hitem : d.item q = .ok (.file [1] 1000000) := item_holding rfl (by decide) (by decide)
  have hscripts : d.scripts (pathOf ["p"]) = [q] :=
    scripts_holding (.of_names (by decide) (by decide)) hbelow (List.pairwise_singleton _ _)
  have hq : q ∈ d.scripts (pathOf ["p"]) := by rw [hscripts]; simp
  have hscripts' : (holding scripts').scripts (pathOf ["p"]) = [crashing, q] :=
    scripts_holding hnamed hbelow' (List.pairwise_pair.2 (by decide +kernel))
  have hchanged := U.sameScripts_changed
  have hitem' : U.changed.item q = .ok (.file [1] 1000000) :=
    (hchanged.item q (by rw [hscripts']; simp)).trans (item_holding rfl (by decide) (by decide))
  have hcrashing : U.changed.item crashing = .ok (.file [2] 2000000) :=
    (hchanged.item crashing (by rw [hscripts']; simp)).trans
      (item_holding rfl (by decide) (by decide))
  rw [← hchanged.scripts] at hscripts'
  -- the first analysis takes in the script, and the incremental one keeps it
  obtain ⟨⟨a₁, ha₁⟩, -⟩ := U.first_stores
  obtain ⟨_, _, _, hscan₁⟩ := Session.scans_of_ok hs.tidy U.root_session hm hp.readsOnly ha₁
  have hparse : parse q (d.read q) = .parsed .declaring := by
    rw [Disk.read, hitem]
    rfl
  obtain ⟨htable, hledger⟩ := hscan₁.parsed_of_full hp hq hitem hparse fun q' hmem c hc => by
    rw [List.mem_singleton.1 (hscripts ▸ hmem : q' ∈ [q])] at hc
    cases hparse.symm.trans hc
  obtain ⟨_, _, _, hscan⟩ :=
    Session.scans_of_ok U.settled_changed.tidy U.root_first hm hp.readsOnly ha
  have hq' : q ∈ U.changed.scripts (pathOf ["p"]) := by rw [hscripts']; simp
  have hkept := (hscan.kept_of_fresh hq'
    (Ledger.isStale_eq_false_iff.2 ⟨_, _, hledger, rfl, hitem', rfl⟩)).1
  have hpos := Graph.fileCount_pos (hkept.trans htable) U.changed.now
  -- the full one loses it
  obtain ⟨-, es', hproject⟩ := U.settled_changed.tidy.project (resolveRoot_holding _)
  have hcrash : parse crashing (U.changed.read crashing) = .crashed .silent := by
    rw [Disk.read, hcrashing]
    rfl
  have hoptions : s.options = ⟨o, false⟩ := (Session.root_of_open hopen).2
  have hnone := hproject.fileCount_of_crash hm hp hroot hfull hscripts' hcrashing hcrash
    (by rw [hoptions]; rfl) (by rw [hoptions]; rfl)
  rw [hscan.result_ok ha] at hsame
  rw [hsame.fileCount, hnone] at hpos
  exact absurd hpos (lt_irrefl 0)

end SignalAtlas
