import Mathlib.Tactic
import SignalAtlas.Project.Session
import SignalAtlas.Proofs.Buckets
import SignalAtlas.Proofs.Scripts

/-!
# What a scan does to the facts of a project

A scan leaves every script of a project with one of three fates (`Session.Fate`): it is parsed and
its facts are replaced, it is dropped and forgotten, or it was not due and is kept as it was.

* `Scan.parse_eq`: the result of parsing is a function of the outcomes of the single jobs, whatever
  way they are parsed in;
* `Project.fate`: the fate of each script in the table and in a ledger.
-/

namespace SignalAtlas

/-! ### Parsing under fixed outcomes -/

/-- A machine that keeps the messages of each worker in order. -/
def Machine.Fair (m : Machine) : Prop := ∀ ls, Pool.Interleaves ls (m.arrival ls)

theorem Pool.Interleaves.nil_cons {α : Type} {ls : List (List α)} {l : List α}
    (h : Interleaves ls l) : Interleaves ([] :: ls) l := by
  induction h with
  | nil h => exact .nil (by simpa using h)
  | @cons before after a l m _ ih => exact @Interleaves.cons _ ([] :: before) after a l m ih

/-- Messages may arrive worker by worker. -/
theorem Pool.interleaves_flatten {α : Type} (ls : List (List α)) : Interleaves ls ls.flatten := by
  induction ls with
  | nil => exact .nil (by simp)
  | cons l ls ih =>
    induction l with
    | nil => exact ih.nil_cons
    | cons a l ihl => exact @Interleaves.cons _ [] ls a l _ ihl

namespace Pool

variable {p : Provider} {js : List Job} {outcome : Job → Except Crash Message} {C : Disk → Prop}
  {d : Disk}

/-- What becomes of a job that is parsed in turn. -/
def ownMessage (outcome : Job → Except Crash Message) (j : Job) : Message :=
  match outcome j with
  | .ok m => m
  | .error c => .failed (dropped j .workerCrashed (crashMessage c))

theorem serialMessages_eq (h : Fixed p js outcome C) (hd : C d) :
    C (serialMessages p d js).1 ∧ (serialMessages p d js).2 = js.map (ownMessage outcome) := by
  induction js generalizing d with
  | nil => exact ⟨hd, rfl⟩
  | cons j js ih =>
    obtain ⟨hC, ho⟩ := h d hd j (by simp)
    obtain ⟨hC', hrest⟩ := ih (h.sublist fun k hk => List.mem_cons_of_mem _ hk) hC
    refine ⟨hC', ?_⟩
    rw [List.map_cons, ← hrest, ownMessage, ← ho]
    rfl

theorem ownMessage_job {j : Job} (hj : ∀ m, outcome j = .ok m → m.job = j) :
    (ownMessage outcome j).job = j := by
  unfold ownMessage
  split
  · next m hm => exact hj m hm
  · rfl

/-- A verdict is the outcome of a job, or a crash is behind it. -/
theorem outcome_of_mem_verdicts {word : Crash → String} {m : Message}
    (h : m ∈ verdicts word outcome js) :
    (∃ j ∈ js, outcome j = .ok m) ∨
      (∃ j ∈ js, ∃ c, outcome j = .error c) ∧ ∃ e, m = .failed e := by
  induction js with
  | nil => simp [verdicts] at h
  | cons j js ih =>
    rw [verdicts] at h
    split at h
    · next m' hm =>
      rcases List.mem_cons.1 h with rfl | h
      · exact .inl ⟨j, by simp, hm⟩
      · rcases ih h with ⟨k, hk, ho⟩ | ⟨⟨k, hk, hc⟩, he⟩
        · exact .inl ⟨k, List.mem_cons_of_mem _ hk, ho⟩
        · exact .inr ⟨⟨k, List.mem_cons_of_mem _ hk, hc⟩, he⟩
    · next c hc =>
      obtain ⟨k, -, rfl⟩ := List.mem_map.1 h
      exact .inr ⟨⟨j, by simp, c, hc⟩, _, rfl⟩

theorem outcome_of_ownMessage (j : Job) :
    outcome j = .ok (ownMessage outcome j) ∨
      (∃ c, outcome j = .error c) ∧ ∃ e, ownMessage outcome j = .failed e := by
  unfold ownMessage
  split
  · next m hm => exact .inl hm
  · next c hc => exact .inr ⟨⟨c, hc⟩, _, rfl⟩

/-- A result that answers every job once. A parsed file is the outcome of its job, and so is a
dropped one unless a job crashes. -/
structure Answers (outcome : Job → Except Crash Message) (js : List Job) (r : PoolResult) :
    Prop where
  once : (r.parsed.map ParsedFile.job ++ r.errors.map FileError.job).Perm js
  own : ∀ f ∈ r.parsed, outcome f.job = .ok (.parsed f)
  failed : (∀ j ∈ js, ∀ c, outcome j ≠ .error c) → ∀ e ∈ r.errors, outcome e.job = .ok (.failed e)

theorem answers_ofMessages {l : List Message} (hl : l.map Message.job = js)
    (hj : ∀ j ∈ js, ∀ m, outcome j = .ok m → m.job = j)
    (hm : ∀ m ∈ l, (∃ j ∈ js, outcome j = .ok m) ∨
      (∃ j ∈ js, ∃ c, outcome j = .error c) ∧ ∃ e, m = .failed e) :
    Answers outcome js (ofMessages l) := by
  have hown : ∀ {m}, (∃ j ∈ js, outcome j = .ok m) → outcome m.job = .ok m := by
    rintro m ⟨j, hjs, ho⟩
    rw [hj j hjs m ho, ho]
  refine ⟨hl ▸ perm_ofMessages_job l, fun f hf => ?_, fun hcrash e he => ?_⟩
  · rcases hm _ (mem_ofMessages_parsed.1 hf) with h | ⟨-, e, he⟩
    · exact hown h
    · cases he
  · rcases hm _ (mem_ofMessages_errors.1 he) with h | ⟨⟨j, hjs, c, hc⟩, -⟩
    · exact hown h
    · exact absurd hc (hcrash j hjs c)

theorem Answers.sorted {r : PoolResult} (h : Answers outcome js r) : Answers outcome js r.sorted :=
  ⟨(((List.mergeSort_perm _ _).map _).append ((List.mergeSort_perm _ _).map _)).trans h.once,
    fun f hf => h.own f (List.mem_mergeSort.1 hf),
    fun hcrash e he => h.failed hcrash e (List.mem_mergeSort.1 he)⟩

end Pool

namespace Scan

open Pool

variable {p : Provider} {js : List Job} {outcome : Job → Except Crash Message} {C : Disk → Prop}
  {d : Disk} {m : Machine} {o : ScanOptions}

/-- The result of jobs with given outcomes. -/
def resultOn (m : Machine) (o : ScanOptions) (outcome : Job → Except Crash Message)
    (js : List Job) : PoolResult :=
  if isSerial o js.length then ofMessages (js.map (ownMessage outcome))
  else (ofMessages (allVerdicts m.crashText outcome (workers m o js.length) js)).sorted

theorem parse_eq (h : Fixed p js outcome C) (hd : C d) (hm : m.Fair)
    (hk : (js.map key).Nodup) (hr : (js.map Job.relativePath).Nodup) :
    C (parse m p o d js).1 ∧ (parse m p o d js).2 = (resultOn m o outcome js, js.length) := by
  unfold parse resultOn
  split
  · obtain ⟨hC, he⟩ := serialMessages_eq h hd
    refine ⟨hC, ?_⟩
    show (ofMessages (serialMessages p d js).2, (serialMessages p d js).2.length) = _
    rw [he, List.length_map]
  · exact parallel_eq _ h hd hk hr hm

theorem answers_inTurn (hj : ∀ j ∈ js, ∀ m, outcome j = .ok m → m.job = j) :
    Answers outcome js (ofMessages (js.map (ownMessage outcome))) := by
  refine answers_ofMessages ?_ hj fun m hm => ?_
  · rw [List.map_map]
    exact (List.map_congr_left fun j hjs => ownMessage_job (hj j hjs)).trans (List.map_id js)
  · obtain ⟨j, hjs, rfl⟩ := List.mem_map.1 hm
    rcases outcome_of_ownMessage j with ho | ⟨hc, he⟩
    · exact .inl ⟨j, hjs, ho⟩
    · exact .inr ⟨⟨j, hjs, hc⟩, he⟩

theorem answers_resultOn (hj : ∀ j ∈ js, ∀ m, outcome j = .ok m → m.job = j) :
    Answers outcome js (resultOn m o outcome js) := by
  unfold resultOn
  split
  · exact answers_inTurn hj
  · refine (answers_ofMessages (allVerdicts_job _ hj) hj fun m' hm => ?_).sorted
    obtain ⟨chunk, hc, hv⟩ := List.mem_flatMap.1 hm
    have hsub : ∀ j ∈ chunk, j ∈ js := by
      intro j hjc
      have hflat : (chunksFor (workers m o js.length) js).flatten = js := flatten_chunks _ js
      rw [← hflat]
      exact List.mem_flatten.2 ⟨chunk, hc, hjc⟩
    rcases outcome_of_mem_verdicts hv with ⟨j, hjc, ho⟩ | ⟨⟨j, hjc, hcrash⟩, he⟩
    · exact .inl ⟨j, hsub j hjc, ho⟩
    · exact .inr ⟨⟨j, hsub j hjc, hcrash⟩, he⟩

/-- A single worker that crashes at once leaves nothing. -/
theorem parsed_resultOn_of_crash {j : Job} {c : Crash}
    (hserial : isSerial o (j :: js).length = false) (hworkers : workers m o (j :: js).length = 1)
    (hc : outcome j = .error c) : (resultOn m o outcome (j :: js)).parsed = [] := by
  have hchunks : chunksFor 1 (j :: js) = [j :: js] := by
    unfold chunksFor
    rw [chunks]
    simp [ceilDiv, chunks]
  have hfailed : ∀ (message : String) (ks : List Job),
      (ks.map fun k => Message.failed (crashed message k)).filterMap Message.parsed? = [] := by
    intro message ks
    rw [List.filterMap_map]
    exact List.filterMap_eq_nil_iff.2 fun _ _ => rfl
  unfold resultOn allVerdicts chunkVerdicts
  rw [hserial, if_neg (by simp), hworkers, hchunks, List.flatMap_singleton, verdicts, hc]
  unfold PoolResult.sorted ofMessages
  rw [hfailed, List.mergeSort_nil]

/-- If two workers share a few files and the first file crashes, the other one of its chunk is lost,
but not that of the second worker. -/
theorem resultOn_of_crash {ja jb : Job} {c : Crash} {b : Message} (lost : List Job)
    (hlost : lost.length ≤ 1)
    (hserial : isSerial o (lost.length + 2) = false) (hworkers : workers m o (lost.length + 2) = 2)
    (ha : outcome ja = .error c) (hb : outcome jb = .ok b) :
    resultOn m o outcome (ja :: (lost ++ [jb])) =
      (ofMessages ((ja :: lost).map (fun j =>
        .failed (crashed (workerMessage m.crashText (ja :: lost) c) j)) ++ [b])).sorted := by
  have hchunks : chunksFor 2 (ja :: (lost ++ [jb])) = [ja :: lost, [jb]] := by
    unfold chunksFor
    match lost, hlost with
    | [], _ => simp [ceilDiv, chunks]
    | [j], _ => simp [ceilDiv, chunks]
  have hlength : (ja :: (lost ++ [jb])).length = lost.length + 2 := by simp
  unfold resultOn allVerdicts
  rw [hlength, hserial, if_neg (by simp), hworkers, hchunks]
  simp [chunkVerdicts, verdicts, ha, hb]

/-- A scan fails in the same way for all ways of parsing, or finds the project and a provider that
is ready. -/
theorem run_cases (p : Provider) (mode : ScanMode) (l : Ledger) (d : Disk) (root : Path) :
    (∃ e, ((∃ x, resolveRoot d root = .error x) ∨ ∃ x, p.init = .error x) ∧
        ∀ m o, run m p o mode l d root = ⟨d, l, [.failed e.message], .error e⟩) ∨
      ∃ r, resolveRoot d root = .ok r ∧ p.init = .ok () ∧
        ∀ m o, run m p o mode l d root = runAt m p o mode l d r := by
  unfold run
  cases hr : resolveRoot d root with
  | error e => exact .inl ⟨e, .inl ⟨e, rfl⟩, fun _ _ => rfl⟩
  | ok r =>
    cases hi : p.init with
    | error e => exact .inl ⟨.providerInit e, .inr ⟨e, rfl⟩, fun _ _ => rfl⟩
    | ok u => exact .inr ⟨r, rfl, rfl, fun _ _ => rfl⟩

end Scan

/-! ### Tables and ledgers after a scan -/

theorem SortedMap.get?_foldl_erase {α β : Type} (key : α → String) (l : List α)
    (m : SortedMap String β) (k : String) :
    (l.foldl (fun m x => m.erase (key x)) m).get? k = if k ∈ l.map key then none else m.get? k := by
  induction l generalizing m with
  | nil => simp
  | cons x l ih =>
    rw [List.foldl_cons, ih, SortedMap.get?_erase]
    simp only [Std.LawfulEqOrd.compare_eq_iff_eq, List.map_cons, List.mem_cons]
    by_cases hk : key x = k
    · simp [hk]
    · simp [hk, Ne.symm hk]

theorem Ledger.get?_foldl_evict {α : Type} (path : α → Path) (xs : List α) (l : Ledger) (q : Path) :
    (xs.foldl (fun l x => l.evict (path x)) l).get? q =
      if q.text ∈ xs.map (fun x => (path x).text) then none else l.get? q := by
  induction xs generalizing l with
  | nil => simp
  | cons x xs ih =>
    rw [List.foldl_cons, ih, Ledger.get?_evict]
    by_cases hk : q.text = (path x).text
    · simp [hk]
    · simp [hk]

@[simp] theorem Path.text_ofText (s : String) : (ofText s).text = s := Bytes.lossy_bytes s

/-- An entry is kept exactly if what is shown of its path names a file that is there. -/
theorem Session.get?_evictVanished (l : Ledger) (present : List Path) (q : Path) :
    (evictVanished l present).get? q =
      if (present.any fun p => p.same (.ofText q.text)) = true then l.get? q else none := by
  unfold evictVanished
  rw [Ledger.get?_foldl_evict]
  by_cases hany : (present.any fun p => p.same (.ofText q.text)) = true
  · rw [if_pos hany, if_neg]
    intro hm
    obtain ⟨p, hp, hk⟩ := List.mem_map.1 hm
    obtain ⟨hkey, hp⟩ := List.mem_filter.1 hp
    obtain ⟨k, -, rfl⟩ := List.mem_map.1 hkey
    rw [Path.text_ofText] at hk
    rw [hk, hany] at hp
    cases hp
  · rw [if_neg hany]
    split
    · rfl
    · next hq =>
      -- a path that is neither present nor evicted has no entry
      refine Option.eq_none_iff_forall_ne_some.2 fun e he => hq (List.mem_map.2 ?_)
      refine ⟨.ofText q.text, List.mem_filter.2 ⟨?_, by simpa using hany⟩, Path.text_ofText _⟩
      exact List.mem_map.2 ⟨q.text, SortedMap.mem_keys.2 ⟨e, he⟩, rfl⟩

namespace Scan

theorem schemaVersion_record (l : Ledger) (files : List ParsedFile) :
    (record l files).schemaVersion = l.schemaVersion := by
  induction files generalizing l with
  | nil => rfl
  | cons f files ih => exact ih (l.update f.path f.mtime)

theorem entries_record (l : Ledger) (files : List ParsedFile) :
    (record l files).entries = l.entries.insertAll
      (files.map fun f => (f.path.text, ⟨f.path.text, f.mtime, l.schemaVersion⟩)) := by
  induction files generalizing l with
  | nil => rfl
  | cons f files ih => exact ih (l.update f.path f.mtime)

theorem get?_record_of_mem {l : Ledger} {files : List ParsedFile} {f : ParsedFile}
    (hn : (files.map fun f => f.path.text).Nodup) (hf : f ∈ files) :
    (record l files).get? f.path = some ⟨f.path.text, f.mtime, l.schemaVersion⟩ := by
  unfold Ledger.get?
  rw [entries_record]
  refine SortedMap.get?_insertAll_of_mem _ ?_ (List.mem_map.2 ⟨f, hf, rfl⟩)
  rwa [List.map_map]

theorem get?_record_of_not_mem {l : Ledger} {files : List ParsedFile} {q : Path}
    (h : q.text ∉ files.map fun f => f.path.text) : (record l files).get? q = l.get? q := by
  unfold Ledger.get?
  rw [entries_record]
  refine SortedMap.get?_insertAll_of_not_mem _ ?_
  rwa [List.map_map]

end Scan

namespace Session

/-- The facts of parsed files with the relative paths of the files. -/
def extracted (files : List ParsedFile) : List (String × FileSignals) :=
  files.map fun f => (f.relativePath, f.script.extract f.relativePath)

theorem keys_extracted (files : List ParsedFile) :
    (extracted files).map Prod.fst = files.map ParsedFile.relativePath :=
  List.map_map

/-- The table of a session after a scan. -/
theorem table_absorb (s : Session) (l : Ledger) (o : ScanOutcome) :
    (s.absorb l o).table =
      (o.errors.foldl (fun t e => t.erase e.relativePath)
        (s.table.filter fun relative _ =>
          (o.discovered.map fun p => p.relativeTo o.root).contains relative)).insertAll
        (extracted o.files) := by
  unfold SortedMap.insertAll extracted
  rw [List.foldl_map]
  rfl

theorem get?_table_absorb_of_not_mem (s : Session) (l : Ledger) (o : ScanOutcome) {k : String}
    (hk : k ∉ o.files.map ParsedFile.relativePath) :
    (s.absorb l o).table.get? k =
      if k ∈ o.errors.map FileError.relativePath then none
      else if k ∈ o.discovered.map fun p => p.relativeTo o.root then s.table.get? k else none := by
  rw [table_absorb, SortedMap.get?_insertAll_of_not_mem _ (by rwa [keys_extracted]),
    SortedMap.get?_foldl_erase, SortedMap.get?_filter]
  congr 1
  cases s.table.get? k with
  | none => simp
  | some f => simp [Option.filter_some]

theorem get?_ledger_absorb (s : Session) (l : Ledger) (o : ScanOutcome) (q : Path) :
    (s.absorb l o).ledger.get? q =
      if q.text ∈ o.errors.map (fun e => e.path.text) then none
      else if (o.discovered.any fun p => p.same (.ofText q.text)) = true then l.get? q
      else none := by
  show (o.errors.foldl (fun l e => l.evict e.path) (evictVanished l o.discovered)).get? q = _
  rw [Ledger.get?_foldl_evict, get?_evictVanished]

theorem schemaVersion_foldl_evict {α : Type} (path : α → Path) (xs : List α) (l : Ledger) :
    (xs.foldl (fun l x => l.evict (path x)) l).schemaVersion = l.schemaVersion := by
  induction xs generalizing l with
  | nil => rfl
  | cons x xs ih => exact ih (l.evict (path x))

theorem schemaVersion_absorb (s : Session) (l : Ledger) (o : ScanOutcome) :
    (s.absorb l o).ledger.schemaVersion = l.schemaVersion :=
  (schemaVersion_foldl_evict FileError.path o.errors _).trans
    (schemaVersion_foldl_evict id _ l)

/-- What a scan makes of a script in the ledger and the table of a session: it is parsed and its
facts are replaced, it is dropped and nothing is remembered of it, or it was not due and is kept. -/
inductive Fate (root : Path) (js : List Job) (r : PoolResult) (l : Ledger) (s s' : Session)
    (q : Path) : Prop
  | parsed (f : ParsedFile) (mem : f ∈ r.parsed) (job : f.job = Scan.job root q)
      (undropped : ∀ e ∈ r.errors, e.path ≠ q)
      (table : s'.table.get? (q.relativeTo root) = some (f.script.extract (q.relativeTo root)))
      (ledger : s'.ledger.get? q = some ⟨q.text, f.mtime, l.schemaVersion⟩)
  | dropped (e : FileError) (mem : e ∈ r.errors) (job : e.job = Scan.job root q)
      (table : s'.table.get? (q.relativeTo root) = none) (ledger : s'.ledger.get? q = none)
  | kept (job : Scan.job root q ∉ js) (undropped : ∀ e ∈ r.errors, e.path ≠ q)
      (table : s'.table.get? (q.relativeTo root) = s.table.get? (q.relativeTo root))
      (ledger : s'.ledger.get? q = l.get? q)

end Session

namespace Project

open Disk Scan Pool

variable {d : Disk} {loc : Location} {es : List (Bytes × Item)} {mode : ScanMode} {l : Ledger}
  {r : PoolResult} {outcome : Job → Except Crash Message} {q : Path}

/-- The jobs of a scan of the project at a location. -/
def due (d : Disk) (loc : Location) (mode : ScanMode) (l : Ledger) : List Job :=
  jobs d mode l (pathOf loc) (d.scripts (pathOf loc))

/-- What a session is after a scan of the project at a location. -/
def after (d : Disk) (loc : Location) (l : Ledger) (r : PoolResult) (st : ScanStats) (s : Session) :
    Session :=
  s.absorb (record l r.parsed) ⟨pathOf loc, d.scripts (pathOf loc), r.parsed, r.errors, st⟩

theorem root_after (d : Disk) (loc : Location) (l : Ledger) (r : PoolResult) (st : ScanStats)
    (s : Session) : (after d loc l r st s).root = s.root :=
  rfl

theorem schemaVersion_after (d : Disk) (loc : Location) (l : Ledger) (r : PoolResult)
    (st : ScanStats) (s : Session) :
    (after d loc l r st s).ledger.schemaVersion = l.schemaVersion := by
  unfold after
  rw [Session.schemaVersion_absorb, schemaVersion_record]

theorem job_mem_scripts (hr : Answers outcome (due d loc mode l) r) {j : Job}
    (hj : j ∈ r.parsed.map ParsedFile.job ++ r.errors.map FileError.job) :
    ∃ q ∈ d.scripts (pathOf loc), job (pathOf loc) q = j := by
  obtain ⟨q, hq, -, hjob⟩ := mem_jobs.1 (hr.once.mem_iff.1 hj)
  exact ⟨q, hq, hjob⟩

/-- Distinct scripts are told apart in a result by whatever tells their jobs apart. -/
theorem nodup_answers {α : Type} (h : Project d loc es)
    (hr : Answers outcome (due d loc mode l) r) (g : Job → α)
    (hg : ∀ a ∈ d.scripts (pathOf loc), ∀ b ∈ d.scripts (pathOf loc),
      g (job (pathOf loc) a) = g (job (pathOf loc) b) → a = b) :
    (r.parsed.map (fun f => g f.job) ++ r.errors.map fun e => g e.job).Nodup := by
  have hn := (hr.once.map g).nodup_iff.2 (h.nodup_map_jobs g hg)
  rwa [List.map_append, List.map_map, List.map_map] at hn

theorem nodup_relative_answers (h : Project d loc es)
    (hr : Answers outcome (due d loc mode l) r) :
    (r.parsed.map ParsedFile.relativePath ++ r.errors.map FileError.relativePath).Nodup :=
  h.nodup_answers hr Job.relativePath fun _ ha _ hb => h.relativeTo_inj ha hb

theorem nodup_text_answers (h : Project d loc es) (hr : Answers outcome (due d loc mode l) r) :
    (r.parsed.map (fun f => f.path.text) ++ r.errors.map fun e => e.path.text).Nodup := by
  exact h.nodup_answers hr (fun j => j.path.text) fun _ ha _ hb => h.text_inj ha hb

theorem any_same (h : Project d loc es) (hq : q ∈ d.scripts (pathOf loc)) :
    ((d.scripts (pathOf loc)).any fun p => p.same (.ofText q.text)) = true := by
  rw [h.ofText_text_of_mem hq]
  exact List.any_eq_true.2 ⟨q, hq, same_iff.2 rfl⟩

variable {st : ScanStats} {s : Session} {k : Ledger}

theorem parsed_fate (h : Project d loc es) (hr : Answers outcome (due d loc mode l) r)
    (hq : q ∈ d.scripts (pathOf loc)) {f : ParsedFile} (hf : f ∈ r.parsed)
    (hjob : f.job = job (pathOf loc) q) :
    Session.Fate (pathOf loc) (due d loc mode l) r k s (after d loc k r st s) q := by
  have hrel := h.nodup_relative_answers hr
  have htext := h.nodup_text_answers hr
  obtain rfl : f.path = q := congrArg Job.path hjob
  have hrelative : f.relativePath = f.path.relativeTo (pathOf loc) :=
    congrArg Job.relativePath hjob
  have hdis : ∀ e ∈ r.errors, e.path.text ≠ f.path.text := fun e he heq =>
    List.disjoint_of_nodup_append htext (List.mem_map.2 ⟨f, hf, rfl⟩) (List.mem_map.2 ⟨e, he, heq⟩)
  refine .parsed f hf hjob (fun e he heq => hdis e he (congrArg Path.text heq)) ?_ ?_
  · unfold after
    rw [Session.table_absorb]
    refine SortedMap.get?_insertAll_of_mem _ ?_ (List.mem_map.2 ⟨f, hf, by rw [hrelative]⟩)
    rw [Session.keys_extracted]
    exact hrel.of_append_left
  · unfold after
    rw [Session.get?_ledger_absorb, if_neg, if_pos (h.any_same hq),
      get?_record_of_mem htext.of_append_left hf]
    intro hm
    obtain ⟨e, he, heq⟩ := List.mem_map.1 hm
    exact hdis e he heq

theorem dropped_fate (h : Project d loc es) (hr : Answers outcome (due d loc mode l) r)
    {e : FileError} (he : e ∈ r.errors) (hjob : e.job = job (pathOf loc) q) :
    Session.Fate (pathOf loc) (due d loc mode l) r k s (after d loc k r st s) q := by
  have hrel := h.nodup_relative_answers hr
  obtain rfl : e.path = q := congrArg Job.path hjob
  have hmem : e.path.relativeTo (pathOf loc) ∈ r.errors.map FileError.relativePath :=
    List.mem_map.2 ⟨e, he, congrArg Job.relativePath hjob⟩
  refine .dropped e he hjob ?_ ?_
  · unfold after
    rw [Session.get?_table_absorb_of_not_mem, if_pos hmem]
    intro hp
    exact List.disjoint_of_nodup_append hrel hp hmem
  · unfold after
    rw [Session.get?_ledger_absorb, if_pos (List.mem_map.2 ⟨e, he, rfl⟩)]

theorem kept_of_not_due (h : Project d loc es) (hr : Answers outcome (due d loc mode l) r)
    (hq : q ∈ d.scripts (pathOf loc)) (hdue : job (pathOf loc) q ∉ due d loc mode l) :
    (∀ e ∈ r.errors, e.path ≠ q) ∧
      (after d loc k r st s).table.get? (q.relativeTo (pathOf loc)) =
        s.table.get? (q.relativeTo (pathOf loc)) ∧
      (after d loc k r st s).ledger.get? q = k.get? q := by
  -- the answers are those of due jobs, so none of them shares a key with this one
  have hnot : ∀ {α : Type} (g : Job → α), (∀ a ∈ d.scripts (pathOf loc),
      ∀ b ∈ d.scripts (pathOf loc), g (job (pathOf loc) a) = g (job (pathOf loc) b) → a = b) →
      ∀ j ∈ r.parsed.map ParsedFile.job ++ r.errors.map FileError.job,
        g j ≠ g (job (pathOf loc) q) := by
    intro α g hg j hj hgj
    obtain ⟨p, hp, rfl⟩ := job_mem_scripts hr hj
    rw [hg p hp q hq hgj] at hj
    exact hdue (hr.once.mem_iff.1 hj)
  have hrel := hnot Job.relativePath fun _ ha _ hb => h.relativeTo_inj ha hb
  have htext := hnot (fun j => j.path.text) fun _ ha _ hb => h.text_inj ha hb
  have hdis : ∀ e ∈ r.errors, e.path.text ≠ q.text := fun e he =>
    htext e.job (List.mem_append_right _ (List.mem_map.2 ⟨e, he, rfl⟩))
  refine ⟨fun e he heq => hdis e he (congrArg Path.text heq), ?_, ?_⟩
  · unfold after
    rw [Session.get?_table_absorb_of_not_mem, if_neg, if_pos (List.mem_map.2 ⟨q, hq, rfl⟩)]
    · rintro he
      obtain ⟨e, he, heq⟩ := List.mem_map.1 he
      exact hrel e.job (List.mem_append_right _ (List.mem_map.2 ⟨e, he, rfl⟩)) heq
    · rintro hf
      obtain ⟨f, hf, heq⟩ := List.mem_map.1 hf
      exact hrel f.job (List.mem_append_left _ (List.mem_map.2 ⟨f, hf, rfl⟩)) heq
  · unfold after
    rw [Session.get?_ledger_absorb, if_neg, if_pos (h.any_same hq), get?_record_of_not_mem]
    · rintro hf
      obtain ⟨f, hf, heq⟩ := List.mem_map.1 hf
      exact htext f.job (List.mem_append_left _ (List.mem_map.2 ⟨f, hf, rfl⟩)) heq
    · rintro hm
      obtain ⟨e, he, heq⟩ := List.mem_map.1 hm
      exact hdis e he heq

/-- Every script has its fate. -/
theorem fate (h : Project d loc es) (hr : Answers outcome (due d loc mode l) r)
    (hq : q ∈ d.scripts (pathOf loc)) :
    Session.Fate (pathOf loc) (due d loc mode l) r k s (after d loc k r st s) q := by
  by_cases hdue : job (pathOf loc) q ∈ due d loc mode l
  · rcases List.mem_append.1 (hr.once.mem_iff.2 hdue) with hm | hm
    · obtain ⟨f, hf, hjob⟩ := List.mem_map.1 hm
      exact h.parsed_fate hr hq hf hjob
    · obtain ⟨e, he, hjob⟩ := List.mem_map.1 hm
      exact h.dropped_fate hr he hjob
  · obtain ⟨hundropped, htable, hledger⟩ := h.kept_of_not_due hr hq hdue
    exact .kept hdue hundropped htable hledger

/-- Nothing is remembered of what is no script. -/
theorem table_after_of_not_script (hr : Answers outcome (due d loc mode l) r) {relative : String}
    (hk : ∀ q ∈ d.scripts (pathOf loc), q.relativeTo (pathOf loc) ≠ relative) :
    (after d loc k r st s).table.get? relative = none := by
  have hpresent : relative ∉ (d.scripts (pathOf loc)).map fun p => p.relativeTo (pathOf loc) := by
    intro hm
    obtain ⟨q, hq, rfl⟩ := List.mem_map.1 hm
    exact hk q hq rfl
  unfold after
  rw [Session.get?_table_absorb_of_not_mem, if_neg hpresent, ite_self]
  intro hm
  obtain ⟨f, hf, rfl⟩ := List.mem_map.1 hm
  obtain ⟨q, hq, hjob⟩ := job_mem_scripts hr (List.mem_append_left _ (List.mem_map.2 ⟨f, hf, rfl⟩))
  have hrel := congrArg Job.relativePath hjob
  exact hk q hq hrel

theorem ledger_after_of_not_script
    (hq : ∀ p ∈ d.scripts (pathOf loc), p.same (.ofText q.text) = false) :
    (after d loc k r st s).ledger.get? q = none := by
  have hany : ¬((d.scripts (pathOf loc)).any fun p => p.same (.ofText q.text)) = true := by
    rw [List.any_eq_true]
    rintro ⟨p, hp, hs⟩
    rw [hq p hp] at hs
    cases hs
  unfold after
  rw [Session.get?_ledger_absorb, if_neg hany, ite_self]

end Project

end SignalAtlas
