import Mathlib.Tactic
import SignalAtlas.Project.Scan
import SignalAtlas.Proofs.Bindings

/-!
# Accounting for every job of a pool

`Pool.parallel` divides jobs into chunks, gives each chunk to a worker and reconciles the messages
that arrive with the workers that crashed. Here every job gets one *verdict*, whatever the order of
arrival:

* `verdicts` lists the verdicts of a chunk: up to the first crash each job has its own outcome, from
  there on every job is dropped;
* `told_append_lost`: what a worker tells and what is found lost after its crash are its verdicts;
* `parallel_eq`: the result of a pool consists of the verdicts of its chunks, sorted;
* `parallel_accounts_for_every_job` draws the conclusions.

The provider may change the disk as long as no outcome depends on that (`Fixed`).
-/

namespace SignalAtlas

/-- The job that a parsed file answers. -/
def ParsedFile.job (f : ParsedFile) : Job := ⟨f.path, f.relativePath⟩

/-- The job that a dropped file answers. -/
def FileError.job (e : FileError) : Job := ⟨e.path, e.relativePath⟩

namespace Pool

/-- The job that a message answers. -/
def Message.job : Message → Job
  | .parsed f => f.job
  | .failed e => e.job

/-- On the disks of a class a provider gives each of some jobs an outcome of its own, and leaves a
disk of the class. -/
def Fixed (p : Provider) (js : List Job) (outcome : Job → Except Crash Message)
    (C : Disk → Prop) : Prop :=
  ∀ d, C d → ∀ j ∈ js, C (parseOne p d j).1 ∧ (parseOne p d j).2 = outcome j

section Outcomes

variable {p : Provider} {js : List Job} {outcome : Job → Except Crash Message} {C : Disk → Prop}

theorem Fixed.sublist {ks : List Job} (h : Fixed p js outcome C) (hk : ∀ j ∈ ks, j ∈ js) :
    Fixed p ks outcome C :=
  fun d hd j hj => h d hd j (hk j hj)

theorem job_of_parseOne {d : Disk} {j : Job} {m : Message} (h : (parseOne p d j).2 = .ok m) :
    m.job = j := by
  unfold parseOne at h
  split at h
  · cases h; rfl
  · split at h
    · cases h; rfl
    · cases h; rfl
    · cases h

/-- What becomes of a job on its own. -/
def outcomeOn (p : Provider) (d : Disk) (j : Job) : Except Crash Message := (parseOne p d j).2

theorem parseOne_fst {d : Disk} (hp : ∀ path, (p.parseFile d path).1 = d) (j : Job) :
    (parseOne p d j).1 = d := by
  have h := hp j.path
  unfold parseOne
  split
  · rfl
  · split <;> simp_all

/-- A provider that leaves a disk as it is gives fixed outcomes on it. -/
theorem fixed_outcomeOn {d : Disk} (hp : ∀ path, (p.parseFile d path).1 = d) (js : List Job) :
    Fixed p js (outcomeOn p d) (· = d) := by
  rintro _ rfl j -
  exact ⟨parseOne_fst hp j, rfl⟩

theorem Fixed.job_eq {d : Disk} (h : Fixed p js outcome C) (hd : C d) {j : Job} (hj : j ∈ js)
    {m : Message} (hm : outcome j = .ok m) : m.job = j :=
  job_of_parseOne ((h d hd j hj).2.trans hm)

end Outcomes

/-! ### A worker and its chunk -/

/-- The messages that a worker sends, and the crash that ends it. -/
def told (outcome : Job → Except Crash Message) : List Job → List Message × Option Crash
  | [] => ([], none)
  | j :: js =>
    match outcome j with
    | .error c => ([], some c)
    | .ok m => (m :: (told outcome js).1, (told outcome js).2)

/-- What becomes of a job that a crash takes with it. -/
def crashed (message : String) (j : Job) : FileError := dropped j .workerCrashed message

/-- What becomes of the jobs of a chunk if a crash is worded in a given way. -/
def verdicts (word : Crash → String) (outcome : Job → Except Crash Message) :
    List Job → List Message
  | [] => []
  | j :: js =>
    match outcome j with
    | .ok m => m :: verdicts word outcome js
    | .error c => (j :: js).map fun k => .failed (crashed (word c) k)

section Workers

variable {p : Provider} {js : List Job} {outcome : Job → Except Crash Message} {C : Disk → Prop}
  {word : Crash → String}

theorem work_eq {d : Disk} (h : Fixed p js outcome C) (hd : C d) :
    C (work p d js).1 ∧ (work p d js).2 = told outcome js := by
  induction js generalizing d with
  | nil => exact ⟨hd, rfl⟩
  | cons j js ih =>
    obtain ⟨hC, ho⟩ := h d hd j (by simp)
    have ih := ih (d := (parseOne p d j).1) (h.sublist fun k hk => List.mem_cons_of_mem _ hk) hC
    rcases hp : parseOne p d j with ⟨d', _ | m⟩
    · rw [hp] at hC ho
      simp only [work, hp, told, ← ho]
      exact ⟨hC, trivial⟩
    · rw [hp] at ih ho
      simp only [work, hp, told, ← ho]
      exact ⟨ih.1, by rw [← ih.2]⟩

/-- The transcript of a worker under fixed outcomes. -/
def transcript (outcome : Job → Except Crash Message) (chunk : List Job) : Transcript :=
  ⟨chunk, (told outcome chunk).1, (told outcome chunk).2⟩

theorem transcripts_eq {chunks : List (List Job)} {d : Disk}
    (h : Fixed p chunks.flatten outcome C) (hd : C d) :
    C (transcripts p d chunks).1 ∧
      (transcripts p d chunks).2 = chunks.map (transcript outcome) := by
  induction chunks generalizing d with
  | nil => exact ⟨hd, rfl⟩
  | cons chunk rest ih =>
    have hchunk : Fixed p chunk outcome C := h.sublist fun j hj => by simp [hj]
    obtain ⟨hC, hw⟩ := work_eq hchunk hd
    obtain ⟨hC', ht⟩ := ih (h.sublist fun j hj => by
      rw [List.flatten_cons]; exact List.mem_append_right _ hj) hC
    refine ⟨hC', ?_⟩
    simp only [transcripts, ht, List.map_cons, transcript, ← hw]

theorem verdicts_job (hj : ∀ j ∈ js, ∀ m, outcome j = .ok m → m.job = j) :
    (verdicts word outcome js).map Message.job = js := by
  induction js with
  | nil => rfl
  | cons j js ih =>
    rw [verdicts]
    split
    · next m hm =>
      rw [List.map_cons, hj j (by simp) m hm, ih fun k hk => hj k (List.mem_cons_of_mem _ hk)]
    · rw [List.map_map]
      exact List.map_id'' (fun _ => rfl) _

/-- The jobs that a worker does not get done. -/
def undone (outcome : Job → Except Crash Message) (js : List Job) : List Job :=
  js.drop (told outcome js).1.length

theorem verdicts_eq (js : List Job) :
    verdicts word outcome js = (told outcome js).1 ++ ((told outcome js).2.elim [] fun c =>
      (undone outcome js).map fun k => .failed (crashed (word c) k)) := by
  induction js with
  | nil => rfl
  | cons j js ih =>
    cases ho : outcome j with
    | error c => simp [verdicts, told, undone, ho]
    | ok m => simp [verdicts, told, undone, ho, ih]

theorem told_job (hj : ∀ j ∈ js, ∀ m, outcome j = .ok m → m.job = j) :
    (told outcome js).1.map Message.job = js.take (told outcome js).1.length := by
  induction js with
  | nil => rfl
  | cons j js ih =>
    cases ho : outcome j with
    | error c => simp [told, ho]
    | ok m => simp [told, ho, hj j (by simp) m ho, ih fun k hk => hj k (List.mem_cons_of_mem _ hk)]

theorem same_iff {a b : Path} : a.same b = true ↔ a.components = b.components := by
  unfold Path.same; exact beq_iff_eq

theorem path_eq_job_path (m : Message) : m.path = m.job.path := by cases m <;> rfl

end Workers

/-- What names the file of a job. -/
def key (j : Job) : List Component := j.path.components

section Lost

variable {outcome : Job → Except Crash Message} {chunks : List (List Job)} {reported : List Path}

/-- Chunks of distinct jobs that share a job are the same. -/
theorem chunk_eq_of_mem (hn : chunks.flatten.Nodup) {a b : List Job} (ha : a ∈ chunks)
    (hb : b ∈ chunks) {j : Job} (hja : j ∈ a) (hjb : j ∈ b) : a = b := by
  by_contra hab
  have : Std.Symm (@List.Disjoint Job) := ⟨fun _ _ h => h.symm⟩
  exact (List.nodup_flatten.1 hn).2.forall ha hb hab hja hjb

theorem mem_reported_iff (hn : (chunks.flatten.map key).Nodup)
    (hj : ∀ j ∈ chunks.flatten, ∀ m, outcome j = .ok m → m.job = j)
    (hr : ∀ q, q ∈ reported ↔ ∃ c ∈ chunks, ∃ m ∈ (told outcome c).1, m.path = q)
    {chunk : List Job} (hc : chunk ∈ chunks) {j : Job} (hjc : j ∈ chunk) :
    (reported.any fun q => q.same j.path) = true ↔
      j ∈ chunk.take (told outcome chunk).1.length := by
  have hmem : ∀ c ∈ chunks, ∀ k ∈ c, k ∈ chunks.flatten := fun c hc k hk =>
    List.mem_flatten.2 ⟨c, hc, hk⟩
  have hjob : ∀ c ∈ chunks, (told outcome c).1.map Message.job =
      c.take (told outcome c).1.length := fun c hc => told_job fun k hk => hj k (hmem c hc k hk)
  simp only [List.any_eq_true, same_iff]
  constructor
  · rintro ⟨q, hq, hs⟩
    obtain ⟨c, hc', m, hm, rfl⟩ := (hr q).1 hq
    have hmc : m.job ∈ c.take (told outcome c).1.length := by
      rw [← hjob c hc']; exact List.mem_map_of_mem hm
    -- equal components make it the same job, and a job is in one chunk only
    have hmj : m.job = j := by
      apply List.inj_on_of_nodup_map hn (hmem c hc' _ (List.mem_of_mem_take hmc)) (hmem _ hc _ hjc)
      rw [path_eq_job_path] at hs
      exact hs
    rw [hmj] at hmc
    rwa [← chunk_eq_of_mem hn.of_map hc' hc (List.mem_of_mem_take hmc) hjc]
  · intro h
    rw [← hjob chunk hc] at h
    obtain ⟨m, hm, rfl⟩ := List.mem_map.1 h
    exact ⟨m.path, (hr _).2 ⟨chunk, hc, m, hm, rfl⟩, by rw [path_eq_job_path]⟩

theorem filter_unreported (hn : (chunks.flatten.map key).Nodup)
    (hj : ∀ j ∈ chunks.flatten, ∀ m, outcome j = .ok m → m.job = j)
    (hr : ∀ q, q ∈ reported ↔ ∃ c ∈ chunks, ∃ m ∈ (told outcome c).1, m.path = q)
    {chunk : List Job} (hc : chunk ∈ chunks) :
    (chunk.filter fun j => !reported.any fun q => q.same j.path) = undone outcome chunk := by
  have hnc : chunk.Nodup := (List.nodup_flatten.1 hn.of_map).1 chunk hc
  have hsplit := List.take_append_drop (told outcome chunk).1.length chunk
  have hdis : List.Disjoint (chunk.take (told outcome chunk).1.length) (undone outcome chunk) := by
    rw [← hsplit] at hnc
    exact (List.nodup_append'.1 hnc).2.2
  conv_lhs => rw [← hsplit]
  rw [List.filter_append, List.filter_eq_nil_iff.2, List.nil_append, List.filter_eq_self.2]
  · rfl
  · intro j hjd
    have hjc := List.mem_of_mem_drop hjd
    rw [Bool.not_eq_true', Bool.eq_false_iff]
    intro h
    exact hdis ((mem_reported_iff hn hj hr hc hjc).1 h) hjd
  · intro j hjt h
    have := (mem_reported_iff hn hj hr hc (List.mem_of_mem_take hjt)).2 hjt
    simp [this] at h

/-- What a worker tells and what is found lost after its crash are its verdicts. -/
theorem told_append_lost (text : CrashText) (hn : (chunks.flatten.map key).Nodup)
    (hj : ∀ j ∈ chunks.flatten, ∀ m, outcome j = .ok m → m.job = j)
    (hr : ∀ q, q ∈ reported ↔ ∃ c ∈ chunks, ∃ m ∈ (told outcome c).1, m.path = q)
    {chunk : List Job} (hc : chunk ∈ chunks) :
    (told outcome chunk).1 ++ (lost text reported (transcript outcome chunk)).map .failed =
      verdicts (workerMessage text chunk) outcome chunk := by
  rw [verdicts_eq]
  congr 1
  cases hcr : (told outcome chunk).2 with
  | none => simp [lost, transcript, hcr]
  | some c =>
    simp only [lost, transcript, hcr, filter_unreported hn hj hr hc, List.map_map, Option.elim]
    rfl

end Lost

/-! ### The receiver -/

theorem Interleaves.perm {α : Type} {ls : List (List α)} {m : List α} (h : Interleaves ls m) :
    m.Perm ls.flatten := by
  induction h with
  | nil h => rw [List.flatten_eq_nil_iff.2 h]
  | @cons before after a l m _ ih =>
    rw [List.flatten_append, List.flatten_cons] at ih ⊢
    exact (ih.cons a).trans List.perm_middle.symm

/-- The verdicts of chunks, each with the wording of its own crash. -/
def chunkVerdicts (text : CrashText) (outcome : Job → Except Crash Message)
    (chunks : List (List Job)) : List Message :=
  chunks.flatMap fun chunk => verdicts (workerMessage text chunk) outcome chunk

/-- The verdicts of all chunks. -/
def allVerdicts (text : CrashText) (outcome : Job → Except Crash Message) (workers : Nat)
    (js : List Job) : List Message :=
  chunkVerdicts text outcome (chunksFor workers js)

section Receiver

variable {p : Provider} {js : List Job} {outcome : Job → Except Crash Message} {C : Disk → Prop}
  {text : CrashText}

theorem chunkVerdicts_job {chunks : List (List Job)}
    (hj : ∀ j ∈ chunks.flatten, ∀ m, outcome j = .ok m → m.job = j) :
    (chunkVerdicts text outcome chunks).map Message.job = chunks.flatten := by
  rw [chunkVerdicts, List.map_flatMap, List.flatten_eq_flatMap]
  refine List.flatMap_congr fun chunk hc => ?_
  exact verdicts_job fun j hjc => hj j (List.mem_flatten.2 ⟨chunk, hc, hjc⟩)

theorem allVerdicts_job (workers : Nat) (hj : ∀ j ∈ js, ∀ m, outcome j = .ok m → m.job = j) :
    (allVerdicts text outcome workers js).map Message.job = js := by
  have hf : (chunksFor workers js).flatten = js := flatten_chunks _ js
  rw [allVerdicts, chunkVerdicts_job (by rwa [hf]), hf]

theorem filterMap_parsed_failed (l : List FileError) :
    (l.map Message.failed).filterMap Message.parsed? = [] := by
  induction l with
  | nil => rfl
  | cons e l ih => exact ih

theorem filterMap_failed_failed (l : List FileError) :
    (l.map Message.failed).filterMap Message.failed? = l := by
  induction l with
  | nil => rfl
  | cons e l ih => exact congrArg (e :: ·) ih

/-- A result and the messages that it is made of have the same jobs. -/
theorem perm_ofMessages_job (l : List Message) :
    ((ofMessages l).parsed.map ParsedFile.job ++ (ofMessages l).errors.map FileError.job).Perm
      (l.map Message.job) := by
  induction l with
  | nil => exact .nil
  | cons m l ih =>
    cases m with
    | parsed f => exact ih.cons f.job
    | failed e => exact List.perm_middle.trans (ih.cons e.job)

theorem sorted_eq_of_perm {l m : List Message} (h : l.Perm m)
    (hn : ((l.map Message.job).map Job.relativePath).Nodup) :
    (ofMessages l).sorted = (ofMessages m).sorted := by
  have hn' := ((perm_ofMessages_job l).map Job.relativePath).nodup_iff.2 hn
  rw [List.map_append, List.map_map, List.map_map] at hn'
  have hp : ((ofMessages l).parsed.map ParsedFile.relativePath).Nodup := hn'.of_append_left
  have he : ((ofMessages l).errors.map FileError.relativePath).Nodup := hn'.of_append_right
  have hpm : (ofMessages l).parsed.Perm (ofMessages m).parsed := h.filterMap _
  have hem : (ofMessages l).errors.Perm (ofMessages m).errors := h.filterMap _
  unfold PoolResult.sorted
  rw [mergeSort_eq_of_perm ParsedFile.relativePath hpm hp,
    mergeSort_eq_of_perm FileError.relativePath hem he]

/-- What arrives and what is found lost are, together, the verdicts of all chunks. -/
theorem arrivals_append_lost {chunks : List (List Job)} {arrivals : List Message}
    (hn : (chunks.flatten.map key).Nodup)
    (hj : ∀ j ∈ chunks.flatten, ∀ m, outcome j = .ok m → m.job = j)
    (ha : arrivals.Perm (chunks.flatMap fun c => (told outcome c).1)) :
    (arrivals ++ ((chunks.map (transcript outcome)).flatMap
      (lost text (arrivals.map Message.path))).map Message.failed).Perm
        (chunkVerdicts text outcome chunks) := by
  have hr : ∀ q, q ∈ arrivals.map Message.path ↔
      ∃ c ∈ chunks, ∃ m ∈ (told outcome c).1, m.path = q := by
    intro q
    rw [(ha.map Message.path).mem_iff]
    simp only [List.mem_map, List.mem_flatMap]
    constructor
    · rintro ⟨m, ⟨c, hc, hm⟩, rfl⟩
      exact ⟨c, hc, m, hm, rfl⟩
    · rintro ⟨c, hc, m, hm, rfl⟩
      exact ⟨m, ⟨c, hc, hm⟩, rfl⟩
  rw [List.flatMap_map, List.map_flatMap]
  refine (ha.append_right _).trans ((List.flatMap_append_perm _ _ _).trans (.of_eq ?_))
  exact List.flatMap_congr fun c hc => told_append_lost text hn hj hr hc

/-- A result is made of what arrives and of what is found lost. -/
theorem collect_fst (ts : List Transcript) (arrivals : List Message) :
    (collect text ts arrivals).1 = (ofMessages (arrivals ++
      (ts.flatMap (lost text (arrivals.map Message.path))).map Message.failed)).sorted := by
  unfold ofMessages
  rw [List.filterMap_append, List.filterMap_append, filterMap_parsed_failed,
    filterMap_failed_failed, List.append_nil]
  rfl

theorem collect_eq {chunks : List (List Job)} {arrivals : List Message}
    (hn : (chunks.flatten.map key).Nodup) (hr : (chunks.flatten.map Job.relativePath).Nodup)
    (hj : ∀ j ∈ chunks.flatten, ∀ m, outcome j = .ok m → m.job = j)
    (ha : arrivals.Perm (chunks.flatMap fun c => (told outcome c).1)) :
    collect text (chunks.map (transcript outcome)) arrivals =
      ((ofMessages (chunkVerdicts text outcome chunks)).sorted, chunks.flatten.length) := by
  have hall := @arrivals_append_lost _ text _ _ hn hj ha
  have hjobs := @chunkVerdicts_job _ text _ hj
  have hlen : (chunkVerdicts text outcome chunks).length = chunks.flatten.length := by
    rw [← List.length_map Message.job, hjobs]
  refine Prod.ext ?_ ?_
  · rw [collect_fst, sorted_eq_of_perm hall]
    rw [((hall.map Message.job).map Job.relativePath).nodup_iff, hjobs]
    exact hr
  · have hl := hall.length_eq
    rw [List.length_append, List.length_map, hlen] at hl
    exact hl

/-- The result of a pool consists of the verdicts of its chunks. -/
theorem parallel_eq {arrival : Arrival} {d : Disk} (workers : Nat) (h : Fixed p js outcome C)
    (hd : C d) (hk : (js.map key).Nodup) (hr : (js.map Job.relativePath).Nodup)
    (ha : ∀ ls, Interleaves ls (arrival ls)) :
    C (parallel arrival text p d js workers).1 ∧ (parallel arrival text p d js workers).2 =
      ((ofMessages (allVerdicts text outcome workers js)).sorted, js.length) := by
  have hf : (chunksFor workers js).flatten = js := flatten_chunks _ js
  have hj : ∀ j ∈ js, ∀ m, outcome j = .ok m → m.job = j := fun j hjs m hm => h.job_eq hd hjs hm
  obtain ⟨hC, ht⟩ := transcripts_eq (by rw [hf]; exact h) hd
  refine ⟨hC, ?_⟩
  show collect _ _ _ = _
  rw [ht, List.map_map]
  have harr := (ha ((chunksFor workers js).map fun c => (told outcome c).1)).perm
  rw [← List.flatMap_def] at harr
  have := @collect_eq _ text _ _ (by rwa [hf]) (by rwa [hf]) (by rwa [hf]) harr
  rw [hf] at this
  exact this

end Receiver

/-! ### What the verdicts say -/

/-- A job of a chunk is taken down if it crashes or an earlier job of the chunk does. -/
def TakenDown (outcome : Job → Except Crash Message) (chunk : List Job) (j : Job) : Prop :=
  ∃ before after, chunk = before ++ j :: after ∧ ∃ k ∈ before ++ [j], ∃ c, outcome k = .error c

section Verdicts

variable {p : Provider} {js : List Job} {outcome : Job → Except Crash Message} {C : Disk → Prop}
  {word : Crash → String}

theorem takenDown_cons_of_mem {k j : Job} {m : Message} (hk : outcome k = .ok m) (hj : j ≠ k) :
    TakenDown outcome (k :: js) j ↔ TakenDown outcome js j := by
  constructor
  · rintro ⟨before, after, he, i, hi, c, hc⟩
    cases before with
    | nil =>
      rw [List.nil_append, List.cons.injEq] at he
      exact absurd he.1.symm hj
    | cons b before =>
      rw [List.cons_append, List.cons.injEq] at he
      refine ⟨before, after, he.2, i, ?_, c, hc⟩
      rcases List.mem_cons.1 hi with rfl | hi
      · rw [← he.1, hk] at hc
        cases hc
      · exact hi
  · rintro ⟨before, after, rfl, i, hi, c, hc⟩
    exact ⟨k :: before, after, rfl, i, List.mem_cons_of_mem _ hi, c, hc⟩

/-- Either a job is taken down and dropped as such, or its verdict is its own outcome. -/
theorem verdict_of_mem (hn : js.Nodup) {j : Job} (hj : j ∈ js) :
    (TakenDown outcome js j ∧ ∃ c, .failed (crashed (word c) j) ∈ verdicts word outcome js) ∨
      (¬TakenDown outcome js j ∧ ∃ m, outcome j = .ok m ∧ m ∈ verdicts word outcome js) := by
  induction js with
  | nil => simp at hj
  | cons k js ih =>
    obtain ⟨hk, hn⟩ := List.nodup_cons.1 hn
    cases ho : outcome k with
    | error c =>
      left
      obtain ⟨before, after, he⟩ := List.append_of_mem hj
      refine ⟨⟨before, after, he, k, ?_, c, ho⟩, c, ?_⟩
      · cases before with
        | nil => simp_all
        | cons b before => simp_all
      · rw [verdicts, ho]
        exact List.mem_map.2 ⟨j, hj, rfl⟩
    | ok m =>
      by_cases hjk : j = k
      · subst hjk
        refine .inr ⟨?_, m, ho, by simp [verdicts, ho]⟩
        -- a later place of the same job would make it stand twice in the chunk
        rintro ⟨before, after, he, i, hi, c, hc⟩
        cases before with
        | nil =>
          rw [List.nil_append, List.mem_singleton] at hi
          rw [hi, ho] at hc
          cases hc
        | cons b before =>
          rw [List.cons_append, List.cons.injEq] at he
          exact hk (by rw [he.2]; simp)
      · have hjs : j ∈ js := (List.mem_cons.1 hj).resolve_left hjk
        rw [takenDown_cons_of_mem ho hjk]
        rcases ih hn hjs with ⟨ht, c, hc⟩ | ⟨ht, m', hm', hv⟩
        · exact .inl ⟨ht, c, by simp [verdicts, ho, hc]⟩
        · exact .inr ⟨ht, m', hm', by simp [verdicts, ho, hv]⟩

theorem kind_of_parseOne {d : Disk} {j : Job} {e : FileError}
    (h : (parseOne p d j).2 = .ok (.failed e)) : e.kind ≠ .workerCrashed := by
  unfold parseOne at h
  split at h
  · cases h; simp [dropped]
  · split at h
    · cases h
    · next e _ => cases h; cases e <;> simp [dropped, kindOf]
    · cases h

/-- A result accounts for jobs under given outcomes. Every job is in exactly one of the two lists,
once, and both lists are sorted by relative path. A job is reported as crashed exactly if its chunk
takes it down, and has its own outcome otherwise. -/
structure Accounts (outcome : Job → Except Crash Message) (workers : Nat) (js : List Job)
    (r : PoolResult) : Prop where
  once : (r.parsed.map ParsedFile.job ++ r.errors.map FileError.job).Perm js
  crashed_iff : ∀ j ∈ js, (∃ e ∈ r.errors, e.job = j ∧ e.kind = .workerCrashed) ↔
    ∃ chunk ∈ chunksFor workers js, TakenDown outcome chunk j
  own : ∀ j ∈ js, (¬∃ chunk ∈ chunksFor workers js, TakenDown outcome chunk j) →
    (∃ f ∈ r.parsed, outcome j = .ok (.parsed f)) ∨ ∃ e ∈ r.errors, outcome j = .ok (.failed e)
  parsed_sorted : r.parsed.Pairwise fun a b => a.relativePath < b.relativePath
  errors_sorted : r.errors.Pairwise fun a b => a.relativePath < b.relativePath

theorem mem_ofMessages_parsed {l : List Message} {f : ParsedFile} :
    f ∈ (ofMessages l).parsed ↔ .parsed f ∈ l := by
  unfold ofMessages
  rw [List.mem_filterMap]
  constructor
  · rintro ⟨m, hm, he⟩
    cases m with
    | parsed g => cases he; exact hm
    | failed e => cases he
  · intro h
    exact ⟨_, h, rfl⟩

theorem mem_ofMessages_errors {l : List Message} {e : FileError} :
    e ∈ (ofMessages l).errors ↔ .failed e ∈ l := by
  unfold ofMessages
  rw [List.mem_filterMap]
  constructor
  · rintro ⟨m, hm, he⟩
    cases m with
    | parsed g => cases he
    | failed e => cases he; exact hm
  · intro h
    exact ⟨_, h, rfl⟩

/-- A job with its chunk among the chunks of distinct jobs. -/
theorem exists_chunk (workers : Nat) {j : Job} (hj : j ∈ js) :
    ∃ chunk ∈ chunksFor workers js, j ∈ chunk := by
  have hf : (chunksFor workers js).flatten = js := flatten_chunks _ js
  rw [← hf] at hj
  obtain ⟨chunk, hc, hjc⟩ := List.mem_flatten.1 hj
  exact ⟨chunk, hc, hjc⟩

theorem mem_of_takenDown {chunk : List Job} {j : Job} (h : TakenDown outcome chunk j) :
    j ∈ chunk := by
  obtain ⟨before, after, rfl, -⟩ := h
  simp

/-- The verdict of each job in the result of all chunks. -/
theorem allVerdicts_of_mem (text : CrashText) (workers : Nat) (hn : js.Nodup) {j : Job}
    (hj : j ∈ js) :
    ((∃ chunk ∈ chunksFor workers js, TakenDown outcome chunk j) ∧
        ∃ message, .failed (crashed message j) ∈ allVerdicts text outcome workers js) ∨
      ((¬∃ chunk ∈ chunksFor workers js, TakenDown outcome chunk j) ∧
        ∃ m, outcome j = .ok m ∧ m ∈ allVerdicts text outcome workers js) := by
  have hf : (chunksFor workers js).flatten = js := flatten_chunks _ js
  have hn' : (chunksFor workers js).flatten.Nodup := by rwa [hf]
  obtain ⟨chunk, hc, hjc⟩ := exists_chunk workers hj
  have hin : ∀ m ∈ verdicts (workerMessage text chunk) outcome chunk,
      m ∈ allVerdicts text outcome workers js := fun m hm => List.mem_flatMap.2 ⟨chunk, hc, hm⟩
  rcases verdict_of_mem ((List.nodup_flatten.1 hn').1 chunk hc) hjc with
    ⟨ht, c, hv⟩ | ⟨ht, m, hm, hv⟩
  · exact .inl ⟨⟨chunk, hc, ht⟩, _, hin _ hv⟩
  · refine .inr ⟨?_, m, hm, hin _ hv⟩
    rintro ⟨chunk', hc', ht'⟩
    rw [chunk_eq_of_mem hn' hc' hc (mem_of_takenDown ht') hjc] at ht'
    exact ht ht'

end Verdicts

/-- Whatever the order in which the messages of the workers arrive and however crashes are worded, a
pool accounts for every job, gives the same result for every order, and counts each job as done
once. -/
theorem parallel_accounts_for_every_job {p : Provider} {js : List Job} {d : Disk}
    {outcome : Job → Except Crash Message} {C : Disk → Prop} (text : CrashText) (workers : Nat)
    (h : Fixed p js outcome C) (hd : C d)
    (hpaths : js.Pairwise fun a b => a.path.same b.path = false)
    (hrelative : (js.map Job.relativePath).Nodup) :
    ∃ r, Accounts outcome workers js r ∧
      ∀ arrival : Arrival, (∀ ls, Interleaves ls (arrival ls)) →
        (parallel arrival text p d js workers).2 = (r, js.length) := by
  have hk : (js.map key).Nodup := by
    refine List.pairwise_map.2 (hpaths.imp fun {a b} hab he => ?_)
    rw [same_iff.2 he] at hab
    cases hab
  have hj : ∀ j ∈ js, ∀ m, outcome j = .ok m → m.job = j := fun j hjs m hm => h.job_eq hd hjs hm
  have hjobs := @allVerdicts_job _ _ text workers hj
  have hn : ((allVerdicts text outcome workers js).map Message.job).Nodup := by
    rw [hjobs]; exact hk.of_map
  have hperm := perm_ofMessages_job (allVerdicts text outcome workers js)
  rw [hjobs] at hperm
  have hrel := (hperm.map Job.relativePath).nodup_iff.2 hrelative
  rw [List.map_append, List.map_map, List.map_map] at hrel
  refine ⟨(ofMessages (allVerdicts text outcome workers js)).sorted, ?_, fun arrival ha =>
    (parallel_eq workers h hd hk hrelative ha).2⟩
  have hmemp : ∀ f, f ∈ (ofMessages (allVerdicts text outcome workers js)).sorted.parsed ↔
      .parsed f ∈ allVerdicts text outcome workers js := fun f =>
    List.mem_mergeSort.trans mem_ofMessages_parsed
  have hmeme : ∀ e, e ∈ (ofMessages (allVerdicts text outcome workers js)).sorted.errors ↔
      .failed e ∈ allVerdicts text outcome workers js := fun e =>
    List.mem_mergeSort.trans mem_ofMessages_errors
  refine ⟨?_, ?_, ?_, ?_, ?_⟩
  · exact (((List.mergeSort_perm _ _).map _).append ((List.mergeSort_perm _ _).map _)).trans hperm
  · intro j hjs
    rcases allVerdicts_of_mem text workers hk.of_map hjs with ⟨ht, c, hv⟩ | ⟨ht, m, hm, hv⟩
    · exact iff_of_true ⟨_, (hmeme _).2 hv, rfl, rfl⟩ ht
    · refine iff_of_false ?_ ht
      rintro ⟨e, he, hej, hkind⟩
      -- the only message for the job is its own, and that is never one of a crash
      have hme : m = .failed e := by
        apply List.inj_on_of_nodup_map hn hv ((hmeme e).1 he)
        rw [hj j hjs m hm]
        exact hej.symm
      rw [hme, ← (h d hd j hjs).2] at hm
      exact kind_of_parseOne hm hkind
  · intro j hjs hnot
    rcases allVerdicts_of_mem text workers hk.of_map hjs with ⟨ht, -⟩ | ⟨-, m, hm, hv⟩
    · exact absurd ht hnot
    · cases m with
      | parsed f => exact .inl ⟨f, (hmemp f).2 hv, hm⟩
      | failed e => exact .inr ⟨e, (hmeme e).2 hv, hm⟩
  · exact pairwise_lt_mergeSort ParsedFile.relativePath hrel.of_append_left
  · exact pairwise_lt_mergeSort FileError.relativePath hrel.of_append_right

/-- A provider that crashes at one path and finds an empty script at every other. -/
def crashingAt (bad : String) : Provider where
  init := .ok ()
  parseFile d q := (d, if q.text = bad then .crashed .silent else .parsed ⟨"", default⟩)

/-- Three jobs in two chunks, the first of which is taken down by its first job. -/
theorem parallel_accounts_for_three_jobs :
    let js : List Job := [⟨⟨"/a.gd"⟩, "a.gd"⟩, ⟨⟨"/b.gd"⟩, "b.gd"⟩, ⟨⟨"/c.gd"⟩, "c.gd"⟩]
    let d : Disk :=
      ⟨.folder 0 [("a.gd", .file [] 0), ("b.gd", .file [] 0), ("c.gd", .file [] 0)], [], 0⟩
    let p := crashingAt "/a.gd"
    Fixed p js (outcomeOn p d) (· = d) ∧
      (js.Pairwise fun a b => a.path.same b.path = false) ∧ (js.map Job.relativePath).Nodup ∧
      ∀ text, ∃ r, Accounts (outcomeOn p d) 2 js r ∧
        ∀ arrival : Arrival, (∀ ls, Interleaves ls (arrival ls)) →
          (parallel arrival text p d js 2).2 = (r, 3) := by
  intro js d p
  have hf : Fixed p js (outcomeOn p d) (· = d) := fixed_outcomeOn (fun _ => rfl) js
  have hs : js.Pairwise fun a b => a.path.same b.path = false := by decide
  have hr : (js.map Job.relativePath).Nodup := by decide
  exact ⟨hf, hs, hr, fun text => parallel_accounts_for_every_job text 2 hf rfl hs hr⟩

end Pool

end SignalAtlas
