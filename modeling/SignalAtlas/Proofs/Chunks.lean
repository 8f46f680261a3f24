import Mathlib.Tactic
import SignalAtlas.Proofs.Events

/-!
# How workers share the jobs of a scan

The jobs of a scan are cut into chunks whose size is the number of jobs by that of workers, rounded
up. All chunks have that size but a rest at the end (`Pool.lengths_chunks`), so that rounding may
leave workers without a chunk, and the last chunk may be much smaller than the others:

* `Pool.shares`: the sizes of the chunks, when they are as many as the workers and when they differ
  by at most one;
* `Scan.jobs_are_shared_by_rounding_up`: the same of a scan, for the number of workers it reports;
* `Scan.rounding_leaves_a_worker_idle`: thirteen jobs and six workers make five chunks.
-/

namespace SignalAtlas

namespace Pool

/-! ### Sizes of chunks -/

/-- The sizes of chunks of a list with a number of members. -/
def chunkSizes (size n : Nat) : List Nat :=
  List.replicate (n / size) size ++ if n % size = 0 then [] else [n % size]

theorem chunkSizes_of_le {size n : Nat} (hs : 0 < size) (h : size ≤ n) :
    chunkSizes size n = size :: chunkSizes size (n - size) := by
  unfold chunkSizes
  rw [Nat.div_eq_sub_div hs h, List.replicate_succ, List.cons_append, Nat.mod_eq_sub_mod h]

theorem chunkSizes_of_lt {size n : Nat} (hn : 0 < n) (h : n < size) : chunkSizes size n = [n] := by
  unfold chunkSizes
  rw [Nat.div_eq_of_lt h, Nat.mod_eq_of_lt h, if_neg (by omega)]
  rfl

/-- All chunks have the given size but a rest at the end. -/
theorem lengths_chunks {α : Type} {size : Nat} (hs : 0 < size) (l : List α) :
    (chunks size l).map List.length = chunkSizes size l.length := by
  fun_induction chunks size l with
  | case1 => simp [chunkSizes]
  | case2 a l ih =>
    rw [List.map_cons, ih, List.length_cons, List.length_take, List.length_drop, List.length_cons]
    by_cases h : size ≤ l.length + 1
    · rw [chunkSizes_of_le hs h, show l.length - (size - 1) = l.length + 1 - size by omega,
        show min (size - 1) l.length + 1 = size by omega]
    · rw [chunkSizes_of_lt (n := l.length + 1) (by omega) (by omega),
        show l.length - (size - 1) = 0 by omega,
        show min (size - 1) l.length + 1 = l.length + 1 by omega]
      simp [chunkSizes]

section Sizes

variable {n w : Nat}

theorem ceilDiv_pos (hw : 0 < w) (hn : 0 < n) : 0 < ceilDiv n w := by
  unfold ceilDiv
  exact Nat.div_pos (by omega) hw

/-- A quotient rounded up is the least number of which a multiple is large enough. -/
theorem ceilDiv_le_iff {a b c : Nat} (hb : 0 < b) : ceilDiv a b ≤ c ↔ a ≤ b * c := by
  unfold ceilDiv
  rw [Nat.div_le_iff_le_mul_add_pred hb]
  omega

theorem ceilDiv_eq {size : Nat} (hs : 0 < size) :
    ceilDiv n size = n / size + if n % size = 0 then 0 else 1 := by
  have hdiv := Nat.div_add_mod n size
  have hlt := Nat.mod_lt n hs
  unfold ceilDiv
  split
  · next h =>
    rw [show n + size - 1 = size - 1 + size * (n / size) by omega,
      Nat.add_mul_div_left _ _ hs, Nat.div_eq_of_lt (by omega)]
    omega
  · next h =>
    have hmul : size * (n / size + 1) = size * (n / size) + size := Nat.mul_succ _ _
    rw [show n + size - 1 = n % size - 1 + size * (n / size + 1) by omega,
      Nat.add_mul_div_left _ _ hs, Nat.div_eq_of_lt (by omega), Nat.zero_add]

theorem length_chunkSizes {size : Nat} (hs : 0 < size) :
    (chunkSizes size n).length = ceilDiv n size := by
  rw [ceilDiv_eq hs]
  unfold chunkSizes
  rw [List.length_append, List.length_replicate]
  split <;> rfl

theorem mem_chunkSizes {size k : Nat} :
    k ∈ chunkSizes size n ↔ (k = size ∧ size ≤ n ∧ 0 < size) ∨ (k = n % size ∧ 0 < k) := by
  unfold chunkSizes
  rw [List.mem_append, List.mem_replicate, Nat.div_ne_zero_iff]
  split
  · next h =>
    rw [h]
    simp only [ne_eq, List.not_mem_nil, or_false]
    omega
  · next h =>
    simp only [ne_eq, List.mem_singleton]
    omega

/-- How `n` jobs are shared by `w` workers, no more than there are jobs. The quotient rounded up is
the size of all shares but a rest at the end. Every worker has a share exactly if full shares for
all others do not use up the jobs, and shares differ by at most one exactly if there is no rest or
it lacks only one job. -/
structure Shares (n w : Nat) (sizes : List Nat) : Prop where
  sizes_eq : sizes = chunkSizes (ceilDiv n w) n
  pos : ∀ k ∈ sizes, 0 < k
  length_le : sizes.length ≤ w
  length_eq_iff : sizes.length = w ↔ ceilDiv n w * (w - 1) < n
  even_iff : (∀ a ∈ sizes, ∀ b ∈ sizes, a ≤ b + 1) ↔
    n % ceilDiv n w = 0 ∨ n % ceilDiv n w + 1 = ceilDiv n w
  divides : w ∣ n → sizes = List.replicate w (n / w)

theorem shares (hw : 0 < w) (hn : w ≤ n) : Shares n w (chunkSizes (ceilDiv n w) n) := by
  have hc : 0 < ceilDiv n w := ceilDiv_pos hw (by omega)
  have hle : ceilDiv n w ≤ n := (ceilDiv_le_iff hw).2 (Nat.le_mul_of_pos_left n hw)
  have hlt := Nat.mod_lt n hc
  have hall : n ≤ w * ceilDiv n w := (ceilDiv_le_iff hw).1 le_rfl
  have hlen : ceilDiv n (ceilDiv n w) ≤ w := (ceilDiv_le_iff hc).2 (by rwa [Nat.mul_comm])
  refine ⟨rfl, ?_, ?_, ?_, ?_, ?_⟩
  · intro k hk
    rcases mem_chunkSizes.1 hk with ⟨rfl, -, hpos⟩ | ⟨-, hpos⟩
    · exact hpos
    · exact hpos
  · rwa [length_chunkSizes hc]
  · have hfewer := ceilDiv_le_iff (a := n) (c := w - 1) hc
    rw [length_chunkSizes hc]
    omega
  · constructor
    · intro h
      by_cases hr : n % ceilDiv n w = 0
      · exact .inl hr
      · have hdiffer := h _ (mem_chunkSizes.2 (.inl ⟨rfl, hle, hc⟩)) _
          (mem_chunkSizes.2 (.inr ⟨rfl, by omega⟩))
        omega
    · intro h a ha b hb
      rw [mem_chunkSizes] at ha hb
      omega
  · intro hdvd
    have hquot : ceilDiv n w = n / w := by
      rw [ceilDiv_eq hw, if_pos (Nat.mod_eq_zero_of_dvd hdvd), Nat.add_zero]
    rw [hquot] at hc ⊢
    unfold chunkSizes
    rw [Nat.mod_eq_zero_of_dvd (Nat.div_dvd_of_dvd hdvd), if_pos rfl, List.append_nil,
      Nat.div_div_self hdvd (by omega)]

end Sizes

theorem transcripts_jobs (p : Provider) (d : Disk) (chunks : List (List Job)) :
    (transcripts p d chunks).2.map Transcript.jobs = chunks := by
  induction chunks generalizing d with
  | nil => rfl
  | cons chunk rest ih =>
    rw [transcripts, List.map_cons]
    exact congrArg (chunk :: ·) (ih _)

theorem lengths_tasks (p : Provider) (d : Disk) (chunks : List (List Job)) :
    ((transcripts p d chunks).2.map fun t => t.jobs.length) = chunks.map List.length := by
  conv_rhs => rw [← transcripts_jobs p d chunks, List.map_map]
  rfl

theorem shares_chunksFor {w : Nat} {js : List Job} (hw : 0 < w) (hn : w ≤ js.length) :
    Shares js.length w ((chunksFor w js).map List.length) := by
  unfold chunksFor
  rw [Nat.max_eq_left hw, lengths_chunks (ceilDiv_pos hw (by omega))]
  exact shares hw hn

end Pool

/-! ### The workers of a scan -/

theorem Workers.resolve_pos (m : Machine) (files : Nat) (requested : Option Nat) :
    0 < resolve m files requested :=
  Nat.le_max_left 1 _

theorem Workers.resolve_le (m : Machine) {files : Nat} (requested : Option Nat) (h : 0 < files) :
    resolve m files requested ≤ files :=
  Nat.max_le.2 ⟨h, Nat.min_le_right _ _⟩

namespace Scan

variable {m : Machine} {p : Provider} {o : ScanOptions} {mode : ScanMode} {l : Ledger} {d : Disk}
  {root : Path} {out : ScanOutcome}

/-- What a scan that succeeds reports is determined by its folder and its jobs. -/
theorem eq_of_result (h : (run m p o mode l d root).result = .ok out) :
    out.discovered = d.scripts out.root ∧
      out.stats.workers = workers m o (jobs d mode l out.root out.discovered).length := by
  rcases run_cases p mode l d root with ⟨e, -, hfailed⟩ | ⟨r, -, -, hr⟩
  · rw [hfailed] at h
    cases h
  · rcases hparse : parse m p o d (jobs d mode l r (d.scripts r)) with ⟨d', res, done⟩
    rw [hr, runAt_eq hparse] at h
    cases h
    exact ⟨rfl, rfl⟩

/-- The jobs of a scan that are too many to be parsed in turn are shared by workers. The number of
workers is what was asked for within its bounds, and the scan reports it; each of them gets the
quotient rounded up as long as there are jobs, so that some may get none. -/
theorem jobs_are_shared_by_rounding_up (h : (run m p o mode l d root).result = .ok out)
    (habove : o.serialThreshold < (jobs d mode l out.root out.discovered).length) :
    let js := jobs d mode l out.root out.discovered
    let tasks := (Pool.transcripts p d (Pool.chunksFor out.stats.workers js)).2
    out.stats.workers = Workers.resolve m js.length o.workers ∧
      parse m p o d js = Pool.parallel m.arrival m.crashText p d js out.stats.workers ∧
      (tasks.map Pool.Transcript.jobs).flatten = js ∧
      Pool.Shares js.length out.stats.workers (tasks.map fun t => t.jobs.length) := by
  intro js tasks
  have hjs : 0 < js.length := Nat.zero_lt_of_lt habove
  have hserial : isSerial o js.length = false := decide_eq_false (Nat.not_le.2 habove)
  have hworkers := (eq_of_result h).2
  have hresolve : workers m o js.length = Workers.resolve m js.length o.workers := by
    unfold workers
    rw [hserial]
    rfl
  refine ⟨hworkers.trans hresolve, ?_, ?_, ?_⟩
  · unfold parse
    rw [hserial, hworkers]
    rfl
  · rw [Pool.transcripts_jobs]
    exact Pool.flatten_chunks _ js
  · rw [Pool.lengths_tasks, hworkers.trans hresolve]
    exact Pool.shares_chunksFor (Workers.resolve_pos _ _ _) (Workers.resolve_le _ _ hjs)

/-! ### Thirteen jobs for six workers -/

/-- The names of thirteen scripts. -/
def thirteen : List Bytes :=
  ["a.gd", "b.gd", "c.gd", "d.gd", "e.gd", "f.gd", "g.gd", "h.gd", "i.gd", "j.gd", "k.gd", "l.gd",
    "m.gd"]

/-- The entries of a project with thirteen scripts. -/
def thirteenScripts : List (Bytes × Item) := thirteen.map fun name => (name, .file [] 0)

theorem length_jobs_thirteen (l : Ledger) :
    (jobs (Disk.holding thirteenScripts) .full l (Disk.pathOf ["p"])
      ((Disk.holding thirteenScripts).scripts (Disk.pathOf ["p"]))).length = 13 := by
  have hbelow : Discovery.below true thirteenScripts = thirteen.map fun name => [name] := by
    decide +kernel
  have hproject : Project (Disk.holding thirteenScripts) ["p"] thirteenScripts :=
    project_holding (.of_names (by decide) (by decide))
  rw [jobs_full, List.length_map, hproject.scripts_eq, List.length_mergeSort, hbelow]
  rfl

/-- A scan of thirteen scripts for which six workers are asked for. -/
theorem exists_scan_of_thirteen (p : Provider) (hp : p.init = .ok ()) :
    ∃ out, (run ⟨8, none, fun _ _ => none, List.flatten, fun _ _ => ""⟩ p ⟨0, some 6⟩ .full .empty
        (Disk.holding thirteenScripts) (Disk.pathOf ["p"])).result = .ok out ∧
      (jobs (Disk.holding thirteenScripts) .full .empty out.root out.discovered).length = 13 ∧
      out.stats.workers = 6 := by
  rcases hparse : parse ⟨8, none, fun _ _ => none, List.flatten, fun _ _ => ""⟩ p ⟨0, some 6⟩
      (Disk.holding thirteenScripts) (jobs (Disk.holding thirteenScripts) .full .empty
        (Disk.pathOf ["p"]) ((Disk.holding thirteenScripts).scripts (Disk.pathOf ["p"]))) with
    ⟨d', res, done⟩
  have hout := congrArg Report.result ((run_holding thirteenScripts hp).trans (runAt_eq hparse))
  have hjobs := length_jobs_thirteen .empty
  refine ⟨_, hout, hjobs, ?_⟩
  rw [(eq_of_result hout).2, hjobs]
  rfl

/-- Thirteen scripts for six workers. -/
theorem jobs_are_shared_by_rounding_up_of_thirteen :
    let m : Machine := ⟨8, none, fun _ _ => none, List.flatten, fun _ _ => ""⟩
    let p := Pool.crashingAt "/p/l.gd"
    let d := Disk.holding thirteenScripts
    ∃ out, (run m p ⟨0, some 6⟩ .full .empty d (Disk.pathOf ["p"])).result = .ok out ∧
      0 < (jobs d .full .empty out.root out.discovered).length ∧
      Pool.Shares 13 6 ((Pool.transcripts p d (Pool.chunksFor 6
        (jobs d .full .empty out.root out.discovered))).2.map fun t => t.jobs.length) := by
  intro m p d
  obtain ⟨out, hout, hjobs, hworkers⟩ := exists_scan_of_thirteen p rfl
  have habove : 0 < (jobs d .full .empty out.root out.discovered).length := by
    rw [hjobs]
    decide
  have hshares := (jobs_are_shared_by_rounding_up hout habove).2.2.2
  rw [hworkers, hjobs] at hshares
  exact ⟨out, hout, habove, hshares⟩

/-- Six workers are reported, but there are five chunks, and the last is smaller by two than the
others. -/
theorem rounding_leaves_a_worker_idle :
    let m : Machine := ⟨8, none, fun _ _ => none, List.flatten, fun _ _ => ""⟩
    let p := Pool.crashingAt "/p/l.gd"
    let d := Disk.holding thirteenScripts
    ∃ out, (run m p ⟨0, some 6⟩ .full .empty d (Disk.pathOf ["p"])).result = .ok out ∧
      0 < (jobs d .full .empty out.root out.discovered).length ∧ out.stats.workers = 6 ∧
      ((Pool.transcripts p d (Pool.chunksFor out.stats.workers
        (jobs d .full .empty out.root out.discovered))).2.map fun t => t.jobs.length) =
          [3, 3, 3, 3, 1] := by
  intro m p d
  obtain ⟨out, hout, hjobs, hworkers⟩ := exists_scan_of_thirteen p rfl
  refine ⟨out, hout, by rw [hjobs]; decide, hworkers, ?_⟩
  rw [Pool.lengths_tasks, hworkers]
  have hle : 6 ≤ (jobs d .full .empty out.root out.discovered).length := by
    rw [hjobs]
    decide
  rw [(Pool.shares_chunksFor (by decide) hle).sizes_eq, hjobs]
  decide

end Scan

end SignalAtlas
