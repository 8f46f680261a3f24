import Mathlib.Tactic
import SignalAtlas.Proofs.Sessions

/-!
# The events and counts of a scan

A scan that succeeds sends one event at its start, one after every tenth file, one when all files
are done and one at its end.

* `Progress.filesDone_start`: what has been told when some files are done, by induction over them;
* `Progress.milestones_told`: the numbers that are told in the end;
* `Pool.exists_outcome`: whatever a provider does, the workers of one run look as if each job had an
  outcome of its own. So what holds of workers under fixed outcomes holds of every run;
* `Pool.parallel_once`: every job is answered once, in the order of any arrival;
* `Scan.events_account_for_every_file` puts this together.
-/

namespace SignalAtlas

/-! ### What is told on the way -/

namespace Progress

/-- The multiples of the interval from it up to a number. -/
def tens (n : Nat) : List Nat := (List.range (n / interval)).map fun i => interval * (i + 1)

theorem tens_succ (k : Nat) :
    tens (k + 1) = if (k + 1) % interval = 0 then tens k ++ [k + 1] else tens k := by
  unfold tens
  rw [Nat.succ_div]
  by_cases hk : (k + 1) % interval = 0
  · have hdvd : interval ∣ k + 1 := Nat.dvd_of_mod_eq_zero hk
    have hquot : interval * (k / interval + 1) = k + 1 := by
      unfold interval at hk ⊢
      omega
    rw [if_pos hdvd, if_pos hk, List.range_succ, List.map_append, List.map_singleton, hquot]
  · have hdvd : ¬interval ∣ k + 1 := fun h => hk (Nat.mod_eq_zero_of_dvd h)
    rw [if_neg hdvd, if_neg hk, Nat.add_zero]

theorem mem_tens {k n : Nat} : k ∈ tens n ↔ 10 ∣ k ∧ 0 < k ∧ k ≤ n := by
  unfold tens interval
  rw [List.mem_map]
  constructor
  · rintro ⟨i, hi, rfl⟩
    rw [List.mem_range] at hi
    exact ⟨⟨i + 1, rfl⟩, by omega, by omega⟩
  · rintro ⟨⟨i, rfl⟩, hpos, hle⟩
    exact ⟨i - 1, by rw [List.mem_range]; omega, by omega⟩

theorem pairwise_tens (n : Nat) : (tens n).Pairwise (· < ·) := by
  unfold tens interval
  rw [List.pairwise_map]
  exact List.pairwise_lt_range.imp fun {a b} hab => by omega

theorem filesDone_succ (k : Nat) (p : Progress) :
    filesDone (k + 1) p = (filesDone k p).fileDone := by
  induction k generalizing p with
  | zero => rfl
  | succ k ih => rw [filesDone, ih]; rfl

/-- The report on a scan in which some files are done. -/
theorem filesDone_start (root : Path) (discovered n k : Nat) :
    filesDone k (start root discovered n) =
      ⟨n, k, (tens k).getLast?,
        .started root discovered n :: (tens k).map fun i => .progress i n⟩ := by
  induction k with
  | zero => rfl
  | succ k ih =>
    rw [filesDone_succ, ih, tens_succ]
    unfold fileDone
    simp only
    split
    · simp [tell]
    · rfl

/-- The numbers of files that a scan tells of: the multiples of ten up to the number of all files,
and that number, each once and in increasing order. -/
structure Milestones (n : Nat) (counts : List Nat) : Prop where
  mem_iff : ∀ k, k ∈ counts ↔ (10 ∣ k ∧ 0 < k ∧ k ≤ n) ∨ k = n
  increasing : counts.Pairwise (· < ·)
  last : counts.getLast? = some n

theorem milestones_of_getLast? {n : Nat} (h : (tens n).getLast? = some n) :
    Milestones n (tens n) := by
  have hn := mem_tens.1 (List.mem_of_getLast? h)
  refine ⟨fun k => ?_, pairwise_tens n, h⟩
  rw [mem_tens]
  constructor
  · exact .inl
  · rintro (hk | rfl)
    · exact hk
    · exact hn

theorem milestones_concat {n : Nat} (h : (tens n).getLast? ≠ some n) :
    Milestones n (tens n ++ [n]) := by
  have hlt : ∀ k ∈ tens n, k < n := by
    intro k hk
    have hle := (mem_tens.1 hk).2.2
    refine lt_of_le_of_ne hle ?_
    rintro rfl
    -- the greatest multiple would be the number itself, and stand last
    obtain ⟨front, back, he⟩ := List.append_of_mem hk
    apply h
    cases back with
    | nil => rw [he, List.getLast?_concat]
    | cons b back =>
      have hp := pairwise_tens k
      rw [he] at hp
      have hkb : k < b := (List.pairwise_append.1 hp).2.1.rel_of_mem_take_of_mem_drop
        (i := 1) (by simp) (by simp)
      have hbn := (mem_tens.1 (show b ∈ tens k by rw [he]; simp)).2.2
      omega
  refine ⟨fun k => ?_, ?_, List.getLast?_concat⟩
  · rw [List.mem_append, mem_tens, List.mem_singleton]
  · rw [List.pairwise_append]
    refine ⟨pairwise_tens n, List.pairwise_singleton _ _, fun a ha b hb => ?_⟩
    rw [List.mem_singleton.1 hb]
    exact hlt a ha

/-- What is told of a scan in which all files are done. -/
theorem milestones_told (root : Path) (discovered n : Nat) :
    ∃ counts, Milestones n counts ∧
      (filesDone n (start root discovered n)).finish.events =
        .started root discovered n :: counts.map fun k => .progress k n := by
  rw [filesDone_start]
  by_cases h : (tens n).getLast? = some n
  · exact ⟨_, milestones_of_getLast? h, by simp [finish, h]⟩
  · exact ⟨_, milestones_concat h, by simp [finish, tell, h]⟩

end Progress

/-! ### Every job is done once -/

namespace Pool

variable {p : Provider} {js : List Job} {d : Disk}

theorem serialMessages_job : (serialMessages p d js).2.map Message.job = js := by
  induction js generalizing d with
  | nil => rfl
  | cons j js ih =>
    rcases hp : parseOne p d j with ⟨d', c | m⟩
    · simp only [serialMessages, hp, List.map_cons, ih]
      rfl
    · have hjob : m.job = j := job_of_parseOne (p := p) (d := d) (by rw [hp])
      simp only [serialMessages, hp, List.map_cons, ih, hjob]

theorem length_serialMessages : (serialMessages p d js).2.length = js.length := by
  rw [← List.length_map Message.job, serialMessages_job]

theorem told_congr {f g : Job → Except Crash Message} (h : ∀ j ∈ js, f j = g j) :
    told f js = told g js := by
  induction js with
  | nil => rfl
  | cons j js ih =>
    rw [told, told, h j (by simp), ih fun k hk => h k (List.mem_cons_of_mem _ hk)]

/-- A worker's run over distinct jobs, as if each job had an outcome of its own. -/
theorem exists_outcome_work (hn : js.Nodup) :
    ∃ outcome : Job → Except Crash Message,
      (∀ j m, outcome j = .ok m → m.job = j) ∧ (work p d js).2 = told outcome js := by
  induction js generalizing d with
  | nil =>
    refine ⟨fun _ => .error .silent, ?_, rfl⟩
    intro j m h
    cases h
  | cons j js ih =>
    obtain ⟨hj, hn⟩ := List.nodup_cons.1 hn
    obtain ⟨outcome, hjob, hw⟩ := ih (d := (parseOne p d j).1) hn
    refine ⟨Function.update outcome j (parseOne p d j).2, fun k m hk => ?_, ?_⟩
    · by_cases hkj : k = j
      · subst hkj
        rw [Function.update_self] at hk
        exact job_of_parseOne hk
      · rw [Function.update_of_ne hkj] at hk
        exact hjob k m hk
    · have hrest : told (Function.update outcome j (parseOne p d j).2) js = told outcome js :=
        told_congr fun k hk => Function.update_of_ne (fun (he : k = j) => hj (he ▸ hk)) _ _
      rw [told, Function.update_self, hrest, ← hw]
      rcases hp : parseOne p d j with ⟨d', _ | m⟩ <;> simp only [work, hp]

/-- A run of workers over distinct jobs, as if each job had an outcome of its own. -/
theorem exists_outcome {chunks : List (List Job)} (hn : chunks.flatten.Nodup) :
    ∃ outcome : Job → Except Crash Message, (∀ j m, outcome j = .ok m → m.job = j) ∧
      (transcripts p d chunks).2 = chunks.map (transcript outcome) := by
  induction chunks generalizing d with
  | nil =>
    refine ⟨fun _ => .error .silent, ?_, rfl⟩
    intro j m h
    cases h
  | cons chunk rest ih =>
    rw [List.flatten_cons, List.nodup_append'] at hn
    obtain ⟨hchunk, hrest, hdis⟩ := hn
    obtain ⟨f, hf, hw⟩ := exists_outcome_work (p := p) (d := d) hchunk
    obtain ⟨g, hg, ht⟩ := ih (d := (work p d chunk).1) hrest
    -- the jobs of the first worker have the outcomes of its run, all others those of the rest
    refine ⟨fun j => if j ∈ chunk then f j else g j, fun j m hj => ?_, ?_⟩
    · by_cases hjc : j ∈ chunk
      · exact hf j m (by simpa [hjc] using hj)
      · exact hg j m (by simpa [hjc] using hj)
    · have hfirst : told (fun j => if j ∈ chunk then f j else g j) chunk = told f chunk :=
        told_congr fun j hj => if_pos hj
      have hothers : rest.map (transcript fun j => if j ∈ chunk then f j else g j) =
          rest.map (transcript g) := by
        refine List.map_congr_left fun c hc => ?_
        have htold : told (fun j => if j ∈ chunk then f j else g j) c = told g c :=
          told_congr fun j hj => if_neg fun hjc => hdis hjc (List.mem_flatten.2 ⟨c, hc, hj⟩)
        unfold transcript
        rw [htold]
      rw [List.map_cons, hothers, ← ht, transcript, hfirst, ← hw]
      rfl

theorem length_ofMessages (l : List Message) :
    (ofMessages l).parsed.length + (ofMessages l).errors.length = l.length := by
  simpa using (perm_ofMessages_job l).length_eq

/-- The files in a result of workers are those that are done. -/
theorem length_collect (text : CrashText) (ts : List Transcript) (arrivals : List Message) :
    (collect text ts arrivals).1.parsed.length + (collect text ts arrivals).1.errors.length =
      (collect text ts arrivals).2 := by
  have h := length_ofMessages arrivals
  simp only [collect, PoolResult.sorted, List.length_mergeSort, List.length_append]
  omega

/-- The files of a result, parsed or dropped. -/
def answered (r : PoolResult) : List Job :=
  r.parsed.map ParsedFile.job ++ r.errors.map FileError.job

theorem perm_answered_sorted (r : PoolResult) : (answered r.sorted).Perm (answered r) :=
  ((List.mergeSort_perm _ _).map _).append ((List.mergeSort_perm _ _).map _)

/-- The files of a result of workers are those that messages told of and those found lost. -/
theorem perm_answered_collect (text : CrashText) (ts : List Transcript)
    (arrivals : List Message) :
    (answered (collect text ts arrivals).1).Perm
      ((arrivals ++ (ts.flatMap (lost text (arrivals.map Message.path))).map Message.failed).map
        Message.job) := by
  rw [collect_fst]
  exact (perm_answered_sorted _).trans (perm_ofMessages_job _)

/-- Whatever a provider does and in whatever order messages arrive, workers answer each of some jobs
with distinct paths once. -/
theorem parallel_once {arrival : Arrival} (text : CrashText) (workers : Nat)
    (hk : (js.map key).Nodup) (ha : ∀ ls, Interleaves ls (arrival ls)) :
    (answered (parallel arrival text p d js workers).2.1).Perm js := by
  have hf : (chunksFor workers js).flatten = js := flatten_chunks _ js
  have hdistinct : (chunksFor workers js).flatten.Nodup := by
    rw [hf]
    exact hk.of_map
  obtain ⟨outcome, hjob, ht⟩ := exists_outcome (p := p) (d := d) hdistinct
  have harr := (ha ((chunksFor workers js).map fun c => (told outcome c).1)).perm
  rw [← List.flatMap_def] at harr
  have hall := @arrivals_append_lost _ text _ _ (by rwa [hf]) (fun j _ => hjob j) harr
  have hverdicts := @allVerdicts_job _ _ text workers fun j (_ : j ∈ js) => hjob j
  show (answered (collect _ _ _).1).Perm js
  rw [ht, List.map_map]
  exact (perm_answered_collect _ _ _).trans ((hall.map Message.job).trans (.of_eq hverdicts))

theorem parallel_done {arrival : Arrival} (text : CrashText) (workers : Nat)
    (hk : (js.map key).Nodup) (ha : ∀ ls, Interleaves ls (arrival ls)) :
    (parallel arrival text p d js workers).2.2 = js.length := by
  have honce := (parallel_once (p := p) (d := d) text workers hk ha).length_eq
  rw [answered, List.length_append, List.length_map, List.length_map] at honce
  exact (length_collect _ _ _).symm.trans honce

end Pool

namespace Scan

variable {m : Machine} {p : Provider} {o : ScanOptions} {d : Disk} {js : List Job}

theorem parse_once (hm : m.Fair) (hk : (js.map Pool.key).Nodup) :
    (Pool.answered (parse m p o d js).2.1).Perm js := by
  unfold parse
  split
  · exact (Pool.perm_ofMessages_job _).trans (.of_eq Pool.serialMessages_job)
  · exact Pool.parallel_once _ _ hk hm

/-- Each of some jobs with distinct paths is done once, and is parsed or dropped. -/
theorem parse_done (hm : m.Fair)
    (hjs : js.Pairwise fun a b => a.path.same b.path = false) :
    (parse m p o d js).2.2 = js.length ∧
      (parse m p o d js).2.1.parsed.length + (parse m p o d js).2.1.errors.length = js.length := by
  have hk : (js.map Pool.key).Nodup := by
    refine List.pairwise_map.2 (hjs.imp fun {a b} hab he => ?_)
    rw [Pool.same_iff.2 he] at hab
    cases hab
  unfold parse
  split
  · have hlen : (Pool.serialMessages p d js).2.length = js.length := Pool.length_serialMessages
    exact ⟨hlen, (Pool.length_ofMessages _).trans hlen⟩
  · have hdone := Pool.parallel_done (p := p) (d := d) m.crashText (workers m o js.length) hk hm
    exact ⟨hdone, (Pool.length_collect _ _ _).trans hdone⟩

theorem length_jobs_le {mode : ScanMode} {l : Ledger} {root : Path} {discovered : List Path} :
    (jobs d mode l root discovered).length ≤ discovered.length := by
  unfold jobs
  rw [List.length_map]
  exact List.length_filter_le _ _

theorem runAt_eq {mode : ScanMode} {l : Ledger} {root : Path} {d' : Disk} {r : PoolResult}
    {done : Nat} (h : parse m p o d (jobs d mode l root (d.scripts root)) = (d', r, done)) :
    let n := (jobs d mode l root (d.scripts root)).length
    let s := stats (d.scripts root).length n (workers m o n) r
    runAt m p o mode l d root =
      ⟨d', record l r.parsed,
        (Progress.filesDone done (.start root (d.scripts root).length n)).finish.events ++
          [.completed s],
        .ok ⟨root, d.scripts root, r.parsed, r.errors, s⟩⟩ := by
  simp only [runAt, h]

/-- The outcome of a scan that had `n` files to parse, and the events that it sent, account for
every file: the events tell of the start, of the milestones on the way and of the end; every file
found is skipped, parsed or dropped, and every file that was to be parsed is parsed or dropped. -/
structure Accounted (n : Nat) (out : ScanOutcome) (events : List ScanEvent) : Prop where
  told : ∃ counts, Progress.Milestones n counts ∧ events =
    .started out.root out.discovered.length n ::
      counts.map (fun k => .progress k n) ++ [.completed out.stats]
  discovered : out.stats.filesDiscovered = out.discovered.length
  parsed : out.stats.filesParsed = out.files.length
  failed : out.stats.filesFailed = out.errors.length
  all : out.stats.filesDiscovered =
    out.stats.filesSkipped + out.stats.filesParsed + out.stats.filesFailed
  due : out.stats.filesParsed + out.stats.filesFailed = n

theorem accounted {root : Path} {discovered : List Path} {n workers : Nat} {r : PoolResult}
    (hle : n ≤ discovered.length) (hsum : r.parsed.length + r.errors.length = n) :
    Accounted n ⟨root, discovered, r.parsed, r.errors, stats discovered.length n workers r⟩
      ((Progress.filesDone n (.start root discovered.length n)).finish.events ++
        [.completed (stats discovered.length n workers r)]) := by
  obtain ⟨counts, hcounts, htold⟩ := Progress.milestones_told root discovered.length n
  refine ⟨⟨counts, hcounts, by rw [htold]⟩, rfl, rfl, rfl, ?_, hsum⟩
  simp only [stats]
  omega

/-- A scan that succeeds tells of its start, of every tenth file, of all files and of its end, and
its counts account for every file, whatever the provider does and in whatever order the messages of
workers arrive. A scan that fails tells of that and leaves the ledger as it was. -/
theorem events_account_for_every_file (hm : m.Fair) (p : Provider) (o : ScanOptions)
    (mode : ScanMode) (l : Ledger) (d : Disk) (root : Path) :
    (∀ out, (run m p o mode l d root).result = .ok out →
      ((jobs d mode l out.root out.discovered).Pairwise fun a b => a.path.same b.path = false) →
      Accounted (jobs d mode l out.root out.discovered).length out
        (run m p o mode l d root).events) ∧
    ∀ e, (run m p o mode l d root).result = .error e →
      (run m p o mode l d root).events = [.failed e.message] ∧
        (run m p o mode l d root).ledger = l := by
  rcases run_cases p mode l d root with ⟨e, -, hfailed⟩ | ⟨r, -, -, hr⟩
  · rw [hfailed]
    constructor
    · intro out hout
      cases hout
    · intro e' he'
      cases he'
      exact ⟨rfl, rfl⟩
  · rcases hparse : parse m p o d (jobs d mode l r (d.scripts r)) with ⟨d', res, done⟩
    rw [hr, runAt_eq hparse]
    constructor
    · intro out hout hjs
      cases hout
      obtain ⟨hdone, hsum⟩ := parse_done (p := p) (o := o) (d := d) hm hjs
      rw [hparse] at hdone hsum
      obtain rfl : done = _ := hdone
      exact accounted length_jobs_le hsum
    · intro e he
      cases he

theorem run_holding {mode : ScanMode} {l : Ledger} (es : List (Bytes × Item))
    (hp : p.init = .ok ()) :
    run m p o mode l (Disk.holding es) (Disk.pathOf ["p"]) =
      runAt m p o mode l (Disk.holding es) (Disk.pathOf ["p"]) := by
  unfold run
  rw [resolveRoot_holding, hp]

/-- Two scripts in one chunk, which the first of them takes down. -/
theorem events_account_for_two_lost_files :
    let scripts : List (Bytes × Item) := [("a.gd", .file [] 0), ("b.gd", .file [] 0)]
    let d := Disk.holding scripts
    let m : Machine := ⟨1, none, fun _ _ => none, List.flatten, fun _ _ => "task 1 panicked"⟩
    let p := Pool.crashingAt "/p/a.gd"
    let root := Disk.pathOf ["p"]
    m.Fair ∧ ∃ out, (run m p ⟨0, some 1⟩ .full .empty d root).result = .ok out ∧
      ((jobs d .full .empty out.root out.discovered).Pairwise fun a b =>
        a.path.same b.path = false) ∧
      Accounted 2 out (run m p ⟨0, some 1⟩ .full .empty d root).events := by
  intro scripts d m p root
  have hm : m.Fair := Pool.interleaves_flatten
  have hbelow : Discovery.below true scripts = ([["a.gd"], ["b.gd"]] : List Location) := by
    decide +kernel
  have hscripts : d.scripts root = [Disk.pathOf ["p", "a.gd"], Disk.pathOf ["p", "b.gd"]] :=
    scripts_holding (.of_names (by decide) (by decide)) hbelow
      (List.pairwise_pair.2 (by decide +kernel))
  have hjobs : jobs d .full .empty root (d.scripts root) =
      [job root (Disk.pathOf ["p", "a.gd"]), job root (Disk.pathOf ["p", "b.gd"])] := by
    rw [jobs_full, hscripts]
    rfl
  rcases hparse : parse m p ⟨0, some 1⟩ d (jobs d .full .empty root (d.scripts root)) with
    ⟨d', res, done⟩
  have hdistinct : (jobs d .full .empty root (d.scripts root)).Pairwise fun a b =>
      a.path.same b.path = false := by
    rw [hjobs]
    exact List.pairwise_pair.2 (by decide +kernel)
  have hout := congrArg Report.result ((run_holding scripts rfl).trans (runAt_eq hparse))
  have hall :=
    (events_account_for_every_file hm p ⟨0, some 1⟩ .full .empty d root).1 _ hout hdistinct
  refine ⟨hm, _, hout, hdistinct, ?_⟩
  rw [show 2 = (jobs d .full .empty root (d.scripts root)).length by rw [hjobs]; rfl]
  exact hall

end Scan

end SignalAtlas
