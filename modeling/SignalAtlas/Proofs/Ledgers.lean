import Mathlib.Tactic
import SignalAtlas.Proofs.Upkeep

/-!
# Ledgers and tables in step

A session keeps two records of a project: the ledger lists files by their paths, the table holds
their facts by relative path. A scan, the files that vanish, the files that fail and a new start
from what is stored change the two in steps of their own.

* `Session.Lists`: whatever script the ledger lists, the table has. An analysis keeps this
  (`Session.Scans.lists`), and a session starts with it, whatever is stored
  (`Session.lists_of_open`);
* `Session.Scans.standing`: so after a scan a script is in both, in its present state, or in
  neither;
* `ledger_and_table_stay_in_step`: in a history in which only sessions write the state, ledger and
  table list the same files after every analysis, namely those found and not dropped;
* `Session.paths_eq_nil_of_not_isText`: below a root that is no text the ledger stays empty.
-/

namespace SignalAtlas

open Disk

/-! ### What stands in both records -/

/-- A ledger lists nothing but files of a project. -/
def Ledger.Within (l : Ledger) (loc : Location) : Prop :=
  ∀ q e, l.get? q = some e → ∃ names, Proper names ∧ q.text = (pathOf (loc ++ names)).text

namespace Session

/-- Whatever script the ledger of a session lists, its table has. -/
def Lists (s : Session) (loc : Location) : Prop :=
  ∀ names, Proper names → ∀ e, s.ledger.get? (pathOf (loc ++ names)) = some e →
    ∃ f, s.table.get? (joinSlashes names).lossy = some f

/-- How a script stands after a scan: it is listed in its present state and the table has it, or it
is dropped from both. -/
inductive Standing (d : Disk) (errors : List FileError) (s : Session) (q : Path) : Prop
  | listed (e : LedgerEntry) (it : Item) (f : FileSignals) (undropped : ∀ e ∈ errors, e.path ≠ q)
      (item : d.item q = .ok it) (ledger : s.ledger.get? q = some e)
      (version : e.schemaVersion = s.ledger.schemaVersion)
      (time : milliseconds it.modified = e.mtime)
      (table : s.table.get? (q.relativeTo s.root) = some f)
  | dropped (e : FileError) (mem : e ∈ errors) (job : e.job = Scan.job s.root q)
      (ledger : s.ledger.get? q = none) (table : s.table.get? (q.relativeTo s.root) = none)

variable {s : Session} {m : Machine} {p : Provider} {d : Disk} {mode : ScanMode} {loc : Location}
  {es : List (Bytes × Item)} {r : PoolResult} {st : ScanStats} {a : Analysis} {q : Path}

theorem Scans.standing (h : s.Scans m p d mode loc es r st) (hroot : s.root = pathOf loc)
    (hl : s.Lists loc) (hq : q ∈ d.scripts (pathOf loc)) :
    Standing d r.errors (s.analyze m p d mode).session q := by
  have hroot' : (s.analyze m p d mode).session.root = pathOf loc := by rw [root_analyze, hroot]
  rw [h.state] at hroot' ⊢
  cases h.project.fate h.answers hq with
  | parsed f mem job undropped table ledger =>
    obtain ⟨it, hi, htime⟩ := Pool.modified_of_outcomeOn (h.answers.own f mem)
    rw [job] at hi
    refine .listed _ it _ undropped hi ledger ?_ htime.symm (by rw [hroot']; exact table)
    rw [Project.schemaVersion_after]
  | dropped e mem job table ledger =>
    exact .dropped e mem (by rw [hroot']; exact job) ledger (by rw [hroot']; exact table)
  | kept job undropped table ledger =>
    -- what is not due is fresh, so the ledger lists it, and so the table has it
    have hfresh : s.ledger.isStale d q = false := by
      rw [← Bool.not_eq_true]
      exact fun hstale => job (Project.mem_jobs.2 ⟨q, hq, .inr hstale, rfl⟩)
    obtain ⟨e, it, he, hversion, hi, htime⟩ := Ledger.isStale_eq_false_iff.1 hfresh
    obtain ⟨names, hnames, rfl⟩ := h.project.script_of_mem hq
    obtain ⟨f, hf⟩ := hl names hnames e he
    rw [hnames.relativeTo h.project.isName] at table
    refine .listed e it f undropped hi (ledger.trans he) ?_ htime ?_
    · rw [Project.schemaVersion_after, hversion]
    · rw [hroot', hnames.relativeTo h.project.isName, table, hf]

/-- What is listed after a scan and lies in the project is a script. -/
theorem Scans.script_of_listed (h : s.Scans m p d mode loc es r st) {names : Location}
    {e : LedgerEntry} (hnames : Proper names)
    (he : (s.analyze m p d mode).session.ledger.get? (pathOf (loc ++ names)) = some e) :
    pathOf (loc ++ names) ∈ d.scripts (pathOf loc) := by
  by_contra hnot
  rw [h.state, Project.ledger_after_of_not_script] at he
  · cases he
  · intro q hq
    obtain ⟨names', hnames', rfl⟩ := h.project.script_of_mem hq
    rw [hnames.ofText_text h.project.isText, Bool.eq_false_iff]
    intro hsame
    rw [(same_pathOf (hnames'.isName_append h.project.isName)
      (hnames.isName_append h.project.isName)).1 hsame] at hq
    exact hnot hq

theorem Scans.lists (h : s.Scans m p d mode loc es r st) (hroot : s.root = pathOf loc)
    (hl : s.Lists loc) : (s.analyze m p d mode).session.Lists loc := by
  intro names hnames e he
  cases h.standing hroot hl (h.script_of_listed hnames he) with
  | listed _ _ f _ _ _ _ _ table =>
    rw [root_analyze, hroot, hnames.relativeTo h.project.isName] at table
    exact ⟨f, table⟩
  | dropped _ _ _ ledger =>
    rw [ledger] at he
    cases he

/-- A session starts with a table of all that its ledger lists, whatever is stored. -/
theorem lists_of_open {root : Path} {o : SessionOptions} (h : Session.open d root o = .ok s)
    (hn : ∀ s ∈ loc, IsName s) (ht : ∀ s ∈ loc, s.IsText) (hroot : s.root = pathOf loc) :
    s.Lists loc := by
  intro names hnames e he
  obtain ⟨g, hload, hledger, htable⟩ := restored_of_open h he
  rw [hledger] at he
  have hmem : (joinSlashes names).lossy ∈
      (storedLedger d s.root).paths.map fun path => (Path.ofText path).relativeTo s.root :=
    List.mem_map.2 ⟨_, SortedMap.mem_keys.2 ⟨e, he⟩, by
      rw [hroot, hnames.ofText_text ht, hnames.relativeTo hn]⟩
  rw [htable, get?_restored hload, if_pos hmem, Option.or_some]
  exact ⟨_, rfl⟩

/-- What is listed after a scan is a parsed file or was listed before. -/
theorem Scans.ledger_cases (h : s.Scans m p d mode loc es r st) {e : LedgerEntry}
    (he : (s.analyze m p d mode).session.ledger.get? q = some e) :
    (∃ f ∈ r.parsed, f.path.text = q.text ∧ e = ⟨q.text, f.mtime, s.ledger.schemaVersion⟩) ∨
      s.ledger.get? q = some e := by
  rw [h.state] at he
  unfold Project.after at he
  rw [get?_ledger_absorb] at he
  split at he
  · cases he
  · split at he
    · by_cases hq : q.text ∈ r.parsed.map fun f => f.path.text
      · obtain ⟨f, hf, htext⟩ := List.mem_map.1 hq
        have hget : (Scan.record s.ledger r.parsed).get? q = _ :=
          (congrArg _ htext.symm).trans
            (Scan.get?_record_of_mem (h.project.nodup_text_answers h.answers).of_append_left hf)
        rw [hget] at he
        cases he
        exact .inl ⟨f, hf, htext, by rw [htext]⟩
      · rw [Scan.get?_record_of_not_mem hq] at he
        exact .inr he
    · cases he

theorem Scans.within (h : s.Scans m p d mode loc es r st) (hl : s.ledger.Within loc) :
    (s.analyze m p d mode).session.ledger.Within loc := by
  intro q e he
  rcases h.ledger_cases he with ⟨f, hf, htext, -⟩ | hold
  · obtain ⟨q, hq, hjob⟩ :=
      Project.job_mem_scripts h.answers (List.mem_append_left _ (List.mem_map.2 ⟨f, hf, rfl⟩))
    obtain ⟨names, hnames, rfl⟩ := h.project.script_of_mem hq
    exact ⟨names, hnames, htext.symm.trans (congrArg (fun j => j.path.text) hjob).symm⟩
  · exact hl q e hold

/-! ### Sessions in order -/

/-- What holds of a session of a project, whatever happens to the project and its state: its ledger
is under the present schema, and its table lists files under their own paths and has what the ledger
lists. -/
structure InOrder (s : Session) (loc : Location) : Prop where
  root : s.root = pathOf loc
  version : s.ledger.schemaVersion = Graph.schema
  keyed : Keyed s.table
  lists : s.Lists loc

theorem InOrder.analyze (h : s.InOrder loc) (hd : d.Tidy loc) (hm : m.Fair) (hp : p.ReadsOnly)
    (mode : ScanMode) : (s.analyze m p d mode).session.InOrder loc := by
  rcases scan_cases hd h.root hm hp mode with ⟨hsame, -⟩ | ⟨es, r, st, hscan⟩
  · rw [hsame]
    exact h
  · refine ⟨by rw [root_analyze, h.root], ?_, hscan.keyed h.keyed, hscan.lists h.root h.lists⟩
    rw [hscan.state, Project.schemaVersion_after, h.version]

theorem InOrder.of_open {root : Path} {o : SessionOptions} (h : Session.open d root o = .ok s)
    (hn : ∀ s ∈ loc, IsName s) (ht : ∀ s ∈ loc, s.IsText) (hroot : s.root = pathOf loc) :
    s.InOrder loc :=
  ⟨hroot, schemaVersion_of_open h, keyed_of_open h, lists_of_open h hn ht hroot⟩

/-! ### Counting the files -/

/-- The scripts of a project without those dropped. -/
def remaining (d : Disk) (root : Path) (errors : List FileError) : List Path :=
  (d.scripts root).filter fun q => q ∉ errors.map FileError.path

theorem mem_remaining {root : Path} {errors : List FileError} :
    q ∈ remaining d root errors ↔ q ∈ d.scripts root ∧ ∀ e ∈ errors, e.path ≠ q := by
  unfold remaining
  rw [List.mem_filter, decide_eq_true_eq, List.mem_map]
  simp only [not_exists, not_and]

theorem Scans.nodup_errors (h : s.Scans m p d mode loc es r st) :
    (r.errors.map FileError.path).Nodup :=
  (h.project.nodup_answers h.answers Job.path fun _ _ _ _ hab => hab).of_append_right

theorem Scans.script_of_error (h : s.Scans m p d mode loc es r st) {e : FileError}
    (he : e ∈ r.errors) : e.path ∈ d.scripts (pathOf loc) := by
  obtain ⟨q, hq, hjob⟩ :=
    Project.job_mem_scripts h.answers (List.mem_append_right _ (List.mem_map.2 ⟨e, he, rfl⟩))
  obtain rfl : q = e.path := congrArg Job.path hjob
  exact hq

theorem Scans.length_remaining (h : s.Scans m p d mode loc es r st) :
    (remaining d (pathOf loc) r.errors).length + r.errors.length =
      (d.scripts (pathOf loc)).length := by
  have hperm : (remaining d (pathOf loc) r.errors ++ r.errors.map FileError.path).Perm
      (d.scripts (pathOf loc)) := by
    refine (List.perm_ext_iff_of_nodup ?_ h.project.nodup_scripts).2 fun q => ?_
    · refine List.nodup_append'.2 ⟨h.project.nodup_scripts.filter _, h.nodup_errors, ?_⟩
      intro q hq he
      obtain ⟨e, hmem, rfl⟩ := List.mem_map.1 he
      exact (mem_remaining.1 hq).2 e hmem rfl
    · rw [List.mem_append, mem_remaining]
      refine ⟨?_, fun hq => ?_⟩
      · rintro (⟨hq, -⟩ | he)
        · exact hq
        · obtain ⟨e, hmem, rfl⟩ := List.mem_map.1 he
          exact h.script_of_error hmem
      · by_cases he : q ∈ r.errors.map FileError.path
        · exact .inr he
        · exact .inl ⟨hq, fun e hmem heq => he (List.mem_map.2 ⟨e, hmem, heq⟩)⟩
  have hlength := hperm.length_eq
  rwa [List.length_append, List.length_map] at hlength

/-- After a scan the table has the remaining scripts. -/
theorem Scans.mem_table (h : s.Scans m p d mode loc es r st) (hroot : s.root = pathOf loc)
    (hl : s.Lists loc) {k : String} :
    k ∈ (s.analyze m p d mode).session.table.keys ↔
      k ∈ (remaining d (pathOf loc) r.errors).map fun q => q.relativeTo (pathOf loc) := by
  have hroot' : (s.analyze m p d mode).session.root = pathOf loc := by rw [root_analyze, hroot]
  rw [SortedMap.mem_keys, List.mem_map]
  refine ⟨fun ⟨f, hf⟩ => ?_, fun ⟨q, hq, hk⟩ => ?_⟩
  · by_contra hnot
    have hscript : ∀ q ∈ d.scripts (pathOf loc), q.relativeTo (pathOf loc) ≠ k := by
      rintro q hq rfl
      cases h.standing hroot hl hq with
      | listed _ _ _ undropped => exact hnot ⟨q, mem_remaining.2 ⟨hq, undropped⟩, rfl⟩
      | dropped _ _ _ _ table =>
        rw [hroot', hf] at table
        cases table
    rw [h.state, Project.table_after_of_not_script h.answers hscript] at hf
    cases hf
  · obtain ⟨hscript, hundropped⟩ := mem_remaining.1 hq
    cases h.standing hroot hl hscript with
    | listed _ _ f _ _ _ _ _ table =>
      rw [hroot', hk] at table
      exact ⟨f, table⟩
    | dropped e mem job => exact absurd (congrArg Job.path job) (hundropped e mem)

theorem Scans.length_table (h : s.Scans m p d mode loc es r st) (hroot : s.root = pathOf loc)
    (hl : s.Lists loc) :
    (s.analyze m p d mode).session.table.values.length =
      (remaining d (pathOf loc) r.errors).length := by
  have hn : ((remaining d (pathOf loc) r.errors).map fun q => q.relativeTo (pathOf loc)).Nodup :=
    (h.project.nodup_scripts.filter _).map_on fun a ha b hb =>
      h.project.relativeTo_inj (mem_remaining.1 ha).1 (mem_remaining.1 hb).1
  have hperm := (List.perm_ext_iff_of_nodup (SortedMap.nodup_keys _) hn).2 fun k =>
    h.mem_table hroot hl
  have hlength := hperm.length_eq
  rw [List.length_map, List.length_map] at hlength
  rw [SortedMap.values, List.length_map, hlength]

/-- Each script is skipped, parsed or dropped. -/
theorem Scans.counts_eq (h : s.Scans m p d mode loc es r st) :
    st.filesDiscovered = (d.scripts (pathOf loc)).length ∧ st.filesFailed = r.errors.length ∧
      st.filesParsed + st.filesSkipped + st.filesFailed = st.filesDiscovered := by
  have honce := h.answers.once.length_eq
  rw [List.length_append, List.length_map, List.length_map] at honce
  have hdue : (Project.due d loc mode s.ledger).length ≤ (d.scripts (pathOf loc)).length := by
    unfold Project.due Scan.jobs
    rw [List.length_map]
    exact List.length_filter_le _ _
  rw [h.counts]
  refine ⟨rfl, rfl, ?_⟩
  show r.parsed.length + ((d.scripts (pathOf loc)).length -
    (Project.due d loc mode s.ledger).length) + r.errors.length = (d.scripts (pathOf loc)).length
  omega

end Session

/-! ### Orderly histories -/

/-- What is assumed of an event: whoever changes the disk leaves the project tidy, sessions are
opened on the project, messages of workers stay in order, and providers read files only. -/
def Orderly (loc : Location) (w : World) : Event → Prop
  | .change d => d.Tidy loc
  | .open root _ => ∀ r, Scan.resolveRoot w.disk root = .ok r → r = pathOf loc
  | .analyze _ m p _ => m.Fair ∧ p.ReadsOnly

/-- Whoever else changes the disk writes nothing into the state. -/
def SparesState (loc : Location) (w : World) : Event → Prop
  | .change d => ∀ name b time, d.stored loc name = some (.file b time) →
      ∃ time', w.disk.stored loc name = some (.file b time')
  | _ => True

namespace World

/-- Something holds of every event of a history in the world in which it happens. -/
def Along (P : World → Event → Prop) : World → List Event → Prop
  | _, [] => True
  | w, e :: events => P w e ∧ Along P (w.step e) events

/-- What every event keeps, a history keeps. -/
theorem Along.run {P : World → Event → Prop} {I : World → Prop} {w : World} {events : List Event}
    (hstep : ∀ w e, I w → P w e → I (w.step e)) (hw : I w) (h : Along P w events) :
    I (w.run events) := by
  induction events generalizing w with
  | nil => exact hw
  | cons e events ih => exact ih (hstep w e hw h.1) h.2

variable {loc : Location} {w : World}

/-- What an event does to the sessions: they stay, or one is opened, or one makes an analysis. -/
theorem mem_live_step {lv : Live} (e : Event) (h : lv ∈ (w.step e).live) :
    lv ∈ w.live ∨
      (∃ root o, e = .open root o ∧ Session.open w.disk root o = .ok lv.session) ∨
      ∃ i m p mode lv₀, e = .analyze i m p mode ∧ lv₀ ∈ w.live ∧
        lv.session = (lv₀.session.analyze m p w.disk mode).session := by
  cases e with
  | change d => exact .inl h
  | «open» root o =>
    unfold step at h
    cases hs : Session.open w.disk root o with
    | error e =>
      simp only [hs] at h
      exact .inl h
    | ok s =>
      simp only [hs] at h
      rcases List.mem_append.1 h with h | h
      · exact .inl h
      · rw [List.mem_singleton] at h
        exact .inr (.inl ⟨root, o, rfl, by rw [h]; exact hs⟩)
  | analyze i m p mode =>
    unfold step at h
    cases hi : w.live[i]? with
    | none =>
      simp only [hi] at h
      exact .inl h
    | some lv₀ =>
      simp only [hi] at h
      rcases List.mem_or_eq_of_mem_set h with h | h
      · exact .inl h
      · exact .inr (.inr ⟨i, m, p, mode, lv₀, rfl, List.mem_of_getElem? hi, by rw [h]; rfl⟩)

/-- The project of a world is tidy, and its sessions are in order. -/
structure InOrder (loc : Location) (w : World) : Prop where
  tidy : w.disk.Tidy loc
  live : ∀ lv ∈ w.live, lv.session.InOrder loc

theorem InOrder.step {e : Event} (h : w.InOrder loc) (ha : Orderly loc w e) :
    (w.step e).InOrder loc := by
  refine ⟨?_, fun lv hlv => ?_⟩
  · cases e with
    | change d => exact ha
    | «open» root o =>
      unfold World.step
      cases hs : Session.open w.disk root o <;> simp only [hs] <;> exact h.tidy
    | analyze i m p mode =>
      unfold World.step
      cases hi : w.live[i]? with
      | none =>
        simp only [hi]
        exact h.tidy
      | some lv =>
        simp only [hi]
        have hlv := h.live lv (List.mem_of_getElem? hi)
        exact (Session.analyze_stores h.tidy hlv.root ha.1 ha.2 mode).1
  · rcases mem_live_step e hlv with hold | ⟨root, o, rfl, hs⟩ | ⟨i, m, p, mode, lv₀, rfl, hmem, heq⟩
    · exact h.live lv hold
    · exact .of_open hs h.tidy.isName h.tidy.isText (ha _ (Session.root_of_open hs).1)
    · rw [heq]
      exact (h.live lv₀ hmem).analyze h.tidy ha.1 ha.2 mode

/-- In an orderly history all sessions are in order, whatever is stored at its start. -/
theorem inOrder_run {d : Disk} {events : List Event} (hd : d.Tidy loc)
    (h : Along (Orderly loc) (start d) events) : ((start d).run events).InOrder loc :=
  h.run (fun _ _ hw ha => hw.step ha) ⟨hd, nofun⟩

/-! ### Ledgers that only sessions write -/

/-- No ledger, of a session or stored, lists anything but files of the project. -/
structure Within (loc : Location) (w : World) : Prop where
  live : ∀ lv ∈ w.live, lv.session.ledger.Within loc
  stored : ∀ b time, w.disk.stored loc Ledger.fileName = some (.file b time) →
    ∃ l : Ledger, b = Text.bytes l.toJson.pretty ∧ l.Within loc

theorem Within.of_open {root : Path} {o : SessionOptions} {s : Session} (h : w.Within loc)
    (hd : w.disk.Tidy loc) (hs : Session.open w.disk root o = .ok s)
    (hroot : s.root = pathOf loc) : s.ledger.Within loc := by
  intro q e he
  obtain ⟨g, -, hledger, -⟩ := Session.restored_of_open hs he
  rw [hledger, hroot] at he
  obtain ⟨b, time, entries, hb, hentries, he⟩ :=
    Ledger.stored_of_load hd.isName (hd.linkFree _) he
  obtain ⟨l, rfl, hl⟩ := h.stored b time hb
  rw [Ledger.entries?_toJson] at hentries
  cases hentries
  exact hl q e he

theorem Within.stored_step {e : Event} (h : w.Within loc) (hord : w.InOrder loc)
    (ha : Orderly loc w e) (hs : SparesState loc w e)
    (hlive : ∀ lv ∈ (w.step e).live, lv.session.ledger.Within loc) :
    ∀ b time, (w.step e).disk.stored loc Ledger.fileName = some (.file b time) →
      ∃ l : Ledger, b = Text.bytes l.toJson.pretty ∧ l.Within loc := by
  intro b time hb
  cases e with
  | change d =>
    obtain ⟨time', hb'⟩ := hs _ b time hb
    exact h.stored b time' hb'
  | «open» root o =>
    refine h.stored b time ?_
    rw [← hb]
    unfold World.step
    cases hopen : Session.open w.disk root o <;> simp only [hopen]
  | analyze i m p mode =>
    unfold World.step at hb hlive
    cases hi : w.live[i]? with
    | none =>
      simp only [hi] at hb
      exact h.stored b time hb
    | some lv =>
      simp only [hi] at hb hlive
      have hlv := hord.live lv (List.mem_of_getElem? hi)
      cases (Session.analyze_stores hord.tidy hlv.root ha.1 ha.2 mode).2 with
      | nothing _ _ ledger => exact h.stored b time (ledger ▸ hb)
      | graphOnly _ _ _ _ ledger => exact h.stored b time (ledger ▸ hb)
      | both _ _ _ _ ledger =>
        obtain ⟨-, time', hnew⟩ := ledger
        rw [hnew] at hb
        cases hb
        have hlt : i < w.live.length := (List.getElem?_eq_some_iff.1 hi).1
        exact ⟨_, rfl, hlive _ (List.mem_set hlt _)⟩

theorem Within.step {e : Event} (h : w.Within loc) (hord : w.InOrder loc) (ha : Orderly loc w e)
    (hs : SparesState loc w e) : (w.step e).Within loc := by
  have hlive : ∀ lv ∈ (w.step e).live, lv.session.ledger.Within loc := by
    intro lv hlv
    rcases mem_live_step e hlv with
      hold | ⟨root, o, rfl, hopen⟩ | ⟨i, m, p, mode, lv₀, rfl, hmem, heq⟩
    · exact h.live lv hold
    · exact h.of_open hord.tidy hopen (ha _ (Session.root_of_open hopen).1)
    · rw [heq]
      rcases Session.scan_cases hord.tidy (hord.live lv₀ hmem).root ha.1 ha.2 mode with
        ⟨hsame, -⟩ | ⟨es, r, st, hscan⟩
      · rw [hsame]
        exact h.live lv₀ hmem
      · exact hscan.within (h.live lv₀ hmem)
  exact ⟨hlive, h.stored_step hord ha hs hlive⟩

theorem within_run {d : Disk} {events : List Event} (hd : d.Tidy loc)
    (hnew : ∀ name b time, d.stored loc name ≠ some (.file b time))
    (h : Along (fun w e => Orderly loc w e ∧ SparesState loc w e) (start d) events) :
    ((start d).run events).InOrder loc ∧ ((start d).run events).Within loc := by
  have hstart : (start d).InOrder loc ∧ (start d).Within loc :=
    ⟨⟨hd, nofun⟩, nofun, fun b time hb => absurd hb (hnew _ b time)⟩
  exact h.run (I := fun w => w.InOrder loc ∧ w.Within loc)
    (fun w e hw ha => ⟨hw.1.step ha.1, hw.2.step hw.1 ha.1 ha.2⟩) hstart

end World

/-! ### The two records after an analysis -/

/-- Ledger and table of a session list the files that an analysis has found and not dropped. The
paths of the files are told by their texts, under which the ledger has an entry of the present
schema with the time of the file's last change. The graph is made of the table, and the counts of
the analysis are those of the files. -/
structure Session.InStep (s : Session) (d : Disk) (a : Analysis) : Prop where
  legible : ∀ q ∈ d.scripts s.root, Path.ofText q.text = q
  ledger : ∀ t, t ∈ s.ledger.paths ↔
    ∃ q ∈ d.scripts s.root, q.text = t ∧ ∀ e ∈ a.errors, e.path ≠ q
  current : ∀ q ∈ d.scripts s.root, ∀ e, s.ledger.get? q = some e →
    e.schemaVersion = Graph.schema ∧ d.modifiedMs q = .ok e.mtime
  table : ∀ k, k ∈ s.table.keys ↔
    ∃ q ∈ d.scripts s.root, q.relativeTo s.root = k ∧ ∀ e ∈ a.errors, e.path ≠ q
  graph : a.graph = .ofFiles d.now s.table.values
  errors : (a.errors.map FileError.path).Nodup ∧ ∀ e ∈ a.errors, e.path ∈ d.scripts s.root
  discovered : a.stats.filesDiscovered = (d.scripts s.root).length
  failed : a.stats.filesFailed = a.errors.length ∧ a.stats.filesFailed ≤ a.stats.filesDiscovered
  fileCount : a.graph.metadata.fileCount = a.stats.filesParsed + a.stats.filesSkipped
  rest : a.stats.filesParsed + a.stats.filesSkipped =
    a.stats.filesDiscovered - a.stats.filesFailed

/-- A session whose ledger lists only files of its project keeps its records in step. -/
theorem Session.InOrder.inStep {s : Session} {loc : Location} {m : Machine} {p : Provider}
    {d : Disk} {mode : ScanMode} {a : Analysis} (h : s.InOrder loc) (hwithin : s.ledger.Within loc)
    (hd : d.Tidy loc) (hm : m.Fair) (hp : p.ReadsOnly)
    (hok : (s.analyze m p d mode).result = .ok a) : (s.analyze m p d mode).session.InStep d a := by
  obtain ⟨es, r, st, hscan⟩ := scans_of_ok hd h.root hm hp hok
  have hroot : (s.analyze m p d mode).session.root = pathOf loc := by rw [root_analyze, h.root]
  have hversion := (h.analyze hd hm hp mode).version
  have hstanding : ∀ {q}, q ∈ d.scripts (pathOf loc) → _ := fun hq =>
    hscan.standing h.root h.lists hq
  obtain ⟨hdiscovered, hfailed, hcounts⟩ := hscan.counts_eq
  have hremaining := hscan.length_remaining
  have hfew : st.filesFailed ≤ st.filesDiscovered := by omega
  have hrest : st.filesParsed + st.filesSkipped = st.filesDiscovered - st.filesFailed := by omega
  rw [hscan.result_ok hok]
  refine ⟨fun q hq => hscan.project.ofText_text_of_mem (hroot ▸ hq), fun t => ?_,
    fun q hq e he => ?_, fun k => ?_, rfl, ⟨hscan.nodup_errors, fun e he => ?_⟩, ?_,
    ⟨hfailed, hfew⟩, ?_, hrest⟩
  · rw [hroot]
    refine ⟨fun ht => ?_, ?_⟩
    · -- what the ledger lists lies in the project, so it is a script
      obtain ⟨e, he⟩ := SortedMap.mem_keys.1 ht
      obtain ⟨names, hnames, htext⟩ :=
        hscan.within hwithin (.ofText t) e (by rw [Ledger.get?, Path.text_ofText]; exact he)
      rw [Path.text_ofText] at htext
      subst htext
      have hscript := hscan.script_of_listed hnames he
      cases hstanding hscript with
      | listed _ _ _ undropped => exact ⟨_, hscript, rfl, undropped⟩
      | dropped _ _ _ ledger => cases ledger.symm.trans he
    · rintro ⟨q, hq, rfl, hundropped⟩
      cases hstanding hq with
      | listed e _ _ _ _ ledger => exact SortedMap.mem_keys.2 ⟨e, ledger⟩
      | dropped e mem job => exact absurd (congrArg Job.path job) (hundropped e mem)
  · rw [hroot] at hq
    cases hstanding hq with
    | listed e' it _ _ item ledger version time =>
      rw [he] at ledger
      cases ledger
      refine ⟨version.trans hversion, ?_⟩
      unfold modifiedMs
      rw [item, ← time]
      rfl
    | dropped _ _ _ ledger =>
      rw [ledger] at he
      cases he
  · rw [hscan.mem_table h.root h.lists, List.mem_map, hroot]
    simp only [mem_remaining]
    constructor
    · rintro ⟨q, ⟨hq, hundropped⟩, hk⟩
      exact ⟨q, hq, hk, hundropped⟩
    · rintro ⟨q, hq, hk, hundropped⟩
      exact ⟨q, ⟨hq, hundropped⟩, hk⟩
  · rw [hroot]
    exact hscan.script_of_error he
  · rw [hroot]
    exact hdiscovered
  · have htable := hscan.length_table h.root h.lists
    show (s.analyze m p d mode).session.table.values.length = st.filesParsed + st.filesSkipped
    omega

/-- In a history in which only sessions write the state of a project, ledger and table of a session
are in step after each of its analyses that has a result. -/
theorem ledger_and_table_stay_in_step {loc : Location} {d : Disk} {events : List Event} {i : Nat}
    {m : Machine} {p : Provider} {mode : ScanMode} {a : Analysis} (hd : d.Tidy loc)
    (hnew : ∀ name b time, d.stored loc name ≠ some (.file b time))
    (hevents : World.Along (fun w e => Orderly loc w e ∧ SparesState loc w e) (.start d) events)
    (hm : m.Fair) (hp : p.ReadsOnly)
    (hok : ((World.start d).run events).result? (.analyze i m p mode) = some (.ok a)) :
    ∃ lv, (((World.start d).run events).step (.analyze i m p mode)).live[i]? = some lv ∧
      lv.session.InStep ((World.start d).run events).disk a := by
  obtain ⟨hord, hwithin⟩ := World.within_run hd hnew hevents
  obtain ⟨lv, hi, hok⟩ := Option.map_eq_some_iff.1 hok
  have hmem := List.mem_of_getElem? hi
  refine ⟨lv.analyze m p ((World.start d).run events).disk mode, ?_,
    (hord.live lv hmem).inStep (hwithin.live lv hmem) hord.tidy hm hp hok⟩
  have hlt : i < ((World.start d).run events).live.length := (List.getElem?_eq_some_iff.1 hi).1
  rw [World.step_analyze hi]
  exact List.getElem?_set_self hlt

/-- One of two scripts crashes the parser at first; later it does not, while the other one is gone
and a third one is there. -/
theorem ledger_and_table_stay_in_step_after_crash :
    let p := Provider.reading fun _ contents =>
      if contents.toOption = some [2] then .crashed .silent else .parsed .declaring
    let p' := Provider.reading fun _ _ => .parsed .declaring
    let m := Machine.willing
    let d := holding [("a.gd", .file [1] 1000000), ("b.gd", .file [2] 2000000)]
    let d' := holding [("b.gd", .file [2] 2000000), ("c.gd", .file [3] 3000000)]
    let events := [.open (pathOf ["p"]) {}, .analyze 0 m p .full, .change d']
    d.Tidy ["p"] ∧ (∀ name b time, d.stored ["p"] name ≠ some (.file b time)) ∧
      World.Along (fun w e => Orderly ["p"] w e ∧ SparesState ["p"] w e) (.start d) events ∧
      m.Fair ∧ p'.ReadsOnly ∧
      ∃ a, ((World.start d).run events).result? (.analyze 0 m p' .incremental) = some (.ok a) ∧
        ∃ lv,
          (((World.start d).run events).step (.analyze 0 m p' .incremental)).live[0]? = some lv ∧
          lv.session.InStep ((World.start d).run events).disk a := by
  intro p p' m d d' events
  obtain ⟨⟨hready, -⟩, hnew⟩ :=
    unstored_holding [("a.gd", .file [1] 1000000), ("b.gd", .file [2] 2000000)] rfl
  obtain ⟨⟨hready', hstorable'⟩, hnew'⟩ :=
    unstored_holding [("b.gd", .file [2] 2000000), ("c.gd", .file [3] 3000000)] rfl
  have hd : d.Tidy ["p"] := tidy_holding hready (.of_names (by decide) (by decide))
  have hd' : d'.Tidy ["p"] := tidy_holding hready' (.of_names (by decide) (by decide))
  have hm : m.Fair := Machine.fair_willing
  have hp : p.ReadsOnly := fun _ _ => rfl
  have hp' : p'.ReadsOnly := fun _ _ => rfl
  have hresolve : Scan.resolveRoot d (pathOf ["p"]) = .ok (pathOf ["p"]) := resolveRoot_holding _
  obtain ⟨s, hs⟩ := Session.exists_open hresolve {}
  have hroot : s.root = pathOf ["p"] := Session.root_eq_of_open hs hresolve
  have hevents : World.Along (fun w e => Orderly ["p"] w e ∧ SparesState ["p"] w e) (.start d)
      events := by
    refine ⟨⟨fun r hr => ?_, trivial⟩, ⟨⟨hm, hp⟩, trivial⟩, ⟨hd', fun name b time hb => ?_⟩,
      trivial⟩
    · exact Except.ok.inj (hr.symm.trans hresolve)
    · exact absurd hb (hnew' name b time)
  let lv : Live := Live.analyze ⟨s, s.ledger.agreeing .empty⟩ m p d .full
  have hlive : ((World.start d).run events).live[0]? = some lv := by
    rw [World.run_start_open hs]
    rfl
  have hroot' : lv.session.root = pathOf ["p"] := (Session.root_analyze ..).trans hroot
  obtain ⟨a, ha⟩ := Session.exists_analysis hd' hroot' hm hp' (resolveRoot_holding _) rfl
    (fun _ => ⟨hstorable', fun _ _ => rfl⟩) .incremental
  have hok := (World.result?_analyze hlive).trans (congrArg some ha)
  exact ⟨hd, hnew, hevents, hm, hp', a, hok,
    ledger_and_table_stay_in_step hd hnew hevents hm hp' hok⟩

/-- A script that was last changed five seconds before the epoch is listed as if it had been changed
at the epoch. -/
theorem script_before_epoch_is_listed_at_zero :
    let p := Provider.reading fun _ _ => .parsed .declaring
    let m := Machine.willing
    let q := pathOf ["p", "a.gd"]
    let it := Item.file [1] (-5000000000)
    let d := holding [("a.gd", it)]
    d.Tidy ["p"] ∧ (∀ name b time, d.stored ["p"] name ≠ some (.file b time)) ∧
      d.item q = .ok it ∧
      ∃ s a e, Session.open d (pathOf ["p"]) {} = .ok s ∧
        (s.analyze m p d .full).result = .ok a ∧
        (s.analyze m p d .full).session.ledger.get? q = some e ∧
        (e.mtime.toNat : Int) ≠ it.modified / 1000000 := by
  intro p m q it d
  obtain ⟨hstore, hnew⟩ := unstored_holding [("a.gd", it)] rfl
  have hnamed : Discovery.Named (outside [("a.gd", it)]) := .of_names (by decide) (by decide)
  have hd : d.Tidy ["p"] := tidy_holding hstore.1 hnamed
  have hp : p.DependsOnFile fun _ _ => .parsed .declaring := Provider.dependsOnFile_reading _
  have hitem : d.item q = .ok it := item_holding rfl (by decide) (by decide)
  obtain ⟨s, a, hs, ha⟩ := Session.exists_first_analysis (project_holding hnamed)
    (resolveRoot_holding _) hp rfl Machine.fair_willing (fun _ _ => rfl) hstore {} .full
  have hroot : s.root = pathOf ["p"] := Session.root_eq_of_open hs (resolveRoot_holding _)
  obtain ⟨_, _, _, hscan⟩ := Session.scans_of_ok hd hroot Machine.fair_willing hp.readsOnly ha
  have hbelow : Discovery.below true [("a.gd", it)] = ([["a.gd"]] : List Location) := by
    decide +kernel
  have hscripts : d.scripts (pathOf ["p"]) = [q] :=
    scripts_holding hnamed hbelow (List.pairwise_singleton _ _)
  obtain ⟨-, hledger⟩ := hscan.parsed_of_full hp (hscripts ▸ List.mem_singleton_self q) hitem rfl
    fun _ _ _ => nofun
  have hzero : ((milliseconds (-5000000000)).toNat : Int) ≠ -5000000000 / 1000000 := by decide
  exact ⟨hd, hnew, hitem, s, a, _, hs, ha, hledger, hzero⟩

/-! ### Roots that are no texts -/

/-- Below a root that is no text nothing stays in the ledger: what it shows of a path names no
script that is there. -/
theorem Session.paths_eq_nil_of_not_isText {s : Session} {m : Machine} {p : Provider} {d : Disk}
    {root : Path} {time : Int} {es : List (Bytes × Item)}
    (hresolve : Scan.resolveRoot d s.root = .ok root) (hinit : p.init = .ok ())
    (hfolder : d.item root = .ok (.folder time es)) (hw : (Item.folder time es).WellNamed)
    (hroot : ¬root.bytes.IsText) (mode : ScanMode) :
    (s.analyze m p d mode).session.ledger.paths = [] := by
  refine List.eq_nil_iff_forall_not_mem.2 fun t ht => ?_
  obtain ⟨e, he⟩ := SortedMap.mem_keys.1 ht
  have hrun : Scan.run m p s.options.scan mode s.ledger d s.root =
      Scan.runAt m p s.options.scan mode s.ledger d root := by
    unfold Scan.run
    simp only [hresolve, hinit]
  have hget : (s.analyze m p d mode).session.ledger.get? (.ofText t) = some e := by
    rw [Ledger.get?, Path.text_ofText]
    exact he
  unfold analyze at hget
  simp only [hrun, Scan.runAt] at hget
  rw [get?_ledger_absorb, Path.text_ofText] at hget
  split at hget
  · cases hget
  · split at hget
    · next hany =>
      obtain ⟨q, hq, hsame⟩ := List.any_eq_true.1 hany
      exact not_isText_of_mem_scripts hfolder hw hroot hq
        ((Path.isText_congr hsame).2 (Bytes.isText_bytes t))
    · cases hget

end SignalAtlas
