import Mathlib.Tactic
import SignalAtlas.Proofs.Sessions

/-!
# Ways of parsing

A scan parses few files in turn and many by workers. In turn, files come out in the order of their
paths, component by component; from workers they come out in the order of their relative paths as
texts. If no file crashes the parser this order is the only difference (`Scan.parse_eq_arranged`),
and a session does not depend on it (`Session.absorb_congr`), nor does the graph that it builds
(`parsing_strategy_is_unobservable`).

Nothing is assumed of the names of files here but that they are proper ones and that no two scripts
share a relative path.
-/

namespace SignalAtlas

/-! ### Workers without crashes -/

namespace Pool

variable {p : Provider} {js : List Job} {outcome : Job → Except Crash Message} {C : Disk → Prop}
  {d : Disk}

/-- A worker that meets no crash tells of all its jobs. -/
theorem told_of_safe (hsafe : ∀ j ∈ js, ∀ c, outcome j ≠ .error c) :
    told outcome js = (js.map (ownMessage outcome), none) := by
  induction js with
  | nil => rfl
  | cons j js ih =>
    have ih := ih fun k hk => hsafe k (List.mem_cons_of_mem _ hk)
    cases ho : outcome j with
    | error c => exact absurd ho (hsafe j (by simp) c)
    | ok m => simp [told, ho, ih, ownMessage]

theorem collect_of_safe (text : CrashText) {chunks : List (List Job)} (arrivals : List Message)
    (hsafe : ∀ j ∈ chunks.flatten, ∀ c, outcome j ≠ .error c) :
    collect text (chunks.map (transcript outcome)) arrivals =
      ((ofMessages arrivals).sorted, arrivals.length) := by
  have hlost : (chunks.map (transcript outcome)).flatMap
      (lost text (arrivals.map Message.path)) = [] := by
    rw [List.flatMap_map, List.flatMap_eq_nil_iff]
    intro chunk hc
    have htold := told_of_safe fun j hj => hsafe j (List.mem_flatten.2 ⟨chunk, hc, hj⟩)
    unfold lost transcript
    rw [htold]
  unfold collect
  rw [hlost]
  simp only [List.append_nil, List.length_nil, Nat.add_zero]

/-- Without crashes workers give what parsing in turn gives, by relative path. -/
theorem parallel_eq_sorted {arrival : Arrival} (text : CrashText) (workers : Nat)
    (h : Fixed p js outcome C) (hd : C d)
    (hsafe : ∀ j ∈ js, ∀ c, outcome j ≠ .error c) (hr : (js.map Job.relativePath).Nodup)
    (ha : ∀ ls, Interleaves ls (arrival ls)) :
    C (parallel arrival text p d js workers).1 ∧ (parallel arrival text p d js workers).2 =
      ((ofMessages (js.map (ownMessage outcome))).sorted, js.length) := by
  have hf : (chunksFor workers js).flatten = js := flatten_chunks _ js
  have hfixed : Fixed p (chunksFor workers js).flatten outcome C := by rwa [hf]
  obtain ⟨hC, ht⟩ := transcripts_eq hfixed hd
  have hmessages : ((chunksFor workers js).map fun c => (told outcome c).1).flatten =
      js.map (ownMessage outcome) := by
    conv_rhs => rw [← hf, List.map_flatten]
    congr 1
    refine List.map_congr_left fun chunk hc => ?_
    rw [told_of_safe fun j hj => hsafe j (hf ▸ List.mem_flatten.2 ⟨chunk, hc, hj⟩)]
  have hperm := (ha ((chunksFor workers js).map fun c => (told outcome c).1)).perm
  rw [hmessages] at hperm
  have hjob : (js.map (ownMessage outcome)).map Message.job = js := by
    rw [List.map_map]
    exact (List.map_congr_left fun j hj => ownMessage_job fun m hm => h.job_eq hd hj hm).trans
      (List.map_id js)
  refine ⟨hC, ?_⟩
  show collect _ _ _ = _
  rw [ht, List.map_map]
  refine (collect_of_safe text _ (by rwa [hf])).trans (Prod.ext ?_ ?_)
  · refine (sorted_eq_of_perm hperm.symm ?_).symm
    rwa [hjob]
  · exact hperm.length_eq.trans (List.length_map _)

end Pool

/-! ### The order of a result -/

namespace Scan

open Pool

/-- A result in the order in which the files of a number of jobs come out. -/
def arranged (o : ScanOptions) (n : Nat) (r : PoolResult) : PoolResult :=
  if isSerial o n then r else r.sorted

theorem parsed_arranged_perm (o : ScanOptions) (n : Nat) (r : PoolResult) :
    (arranged o n r).parsed.Perm r.parsed := by
  unfold arranged
  split
  · exact .refl _
  · exact List.mergeSort_perm _ _

theorem errors_arranged_perm (o : ScanOptions) (n : Nat) (r : PoolResult) :
    (arranged o n r).errors.Perm r.errors := by
  unfold arranged
  split
  · exact .refl _
  · exact List.mergeSort_perm _ _

variable {p : Provider} {js : List Job} {outcome : Job → Except Crash Message} {d : Disk}
  {m : Machine} {o : ScanOptions} {mode : ScanMode} {l : Ledger} {root : Path}

theorem answers_arranged {n : Nat} (hj : ∀ j ∈ js, ∀ m, outcome j = .ok m → m.job = j) :
    Answers outcome js (arranged o n (ofMessages (js.map (ownMessage outcome)))) := by
  have h : Answers outcome js (ofMessages (js.map (ownMessage outcome))) := answers_inTurn hj
  unfold arranged
  split
  · exact h
  · exact h.sorted

/-- Distinct relative paths of scripts are those of distinct jobs. -/
theorem nodup_relative_jobs (hr : ((d.scripts root).map fun q => q.relativeTo root).Nodup) :
    ((jobs d mode l root (d.scripts root)).map Job.relativePath).Nodup := by
  unfold jobs
  rw [List.map_map]
  exact hr.sublist (List.filter_sublist.map _)

/-- Scripts with distinct relative paths are told apart by what is shown of their paths. -/
theorem nodup_text_jobs
    (hw : ∀ time es, d.item root = .ok (.folder time es) → (Item.folder time es).WellNamed)
    (hr : ((d.scripts root).map fun q => q.relativeTo root).Nodup) :
    ((jobs d mode l root (d.scripts root)).map fun j => j.path.text).Nodup := by
  unfold jobs
  rw [List.map_map]
  refine ((List.Nodup.of_map _ hr).filter _).map_on fun a ha b hb hab => ?_
  have ha := List.mem_of_mem_filter ha
  have hb := List.mem_of_mem_filter hb
  refine List.inj_on_of_nodup_map hr ha hb ?_
  cases hi : d.item root with
  | error e =>
    rw [Disk.scripts, hi] at ha
    cases ha
  | ok it =>
    cases it with
    | file c time =>
      have honly : ∀ q ∈ d.scripts root, q = root := by
        intro q hq
        rw [Disk.scripts, hi] at hq
        simp only at hq
        split at hq
        · exact List.mem_singleton.1 hq
        · cases hq
      rw [honly a ha, honly b hb]
    | link target =>
      rw [Disk.scripts, hi] at ha
      cases ha
    | folder time es => exact Disk.relativeTo_eq_of_text hi (hw time es hi) ha hb hab

theorem parse_eq_arranged (h : Fixed p js outcome (· = d))
    (hsafe : ∀ j ∈ js, ∀ c, outcome j ≠ .error c) (hr : (js.map Job.relativePath).Nodup)
    (hm : m.Fair) (o : ScanOptions) :
    parse m p o d js =
      (d, arranged o js.length (ofMessages (js.map (ownMessage outcome))), js.length) := by
  unfold parse arranged
  split
  · obtain ⟨hdisk, he⟩ := serialMessages_eq h rfl
    refine Prod.ext hdisk ?_
    show (ofMessages (serialMessages p d js).2, (serialMessages p d js).2.length) = _
    rw [he, List.length_map]
  · obtain ⟨hdisk, he⟩ := parallel_eq_sorted m.crashText (workers m o js.length) h rfl hsafe hr hm
    exact Prod.ext hdisk he

/-- The scan of a project whose scripts have distinct relative paths, as a function of the outcomes
of its jobs. -/
theorem runAt_eq_arranged (h : Fixed p (jobs d mode l root (d.scripts root)) outcome (· = d))
    (hsafe : ∀ j ∈ jobs d mode l root (d.scripts root), ∀ c, outcome j ≠ .error c)
    (hr : ((d.scripts root).map fun q => q.relativeTo root).Nodup) (hm : m.Fair)
    (o : ScanOptions) :
    let js := jobs d mode l root (d.scripts root)
    let r := arranged o js.length (ofMessages (js.map (ownMessage outcome)))
    (runAt m p o mode l d root).disk = d ∧
      (runAt m p o mode l d root).ledger = record l r.parsed ∧
      (runAt m p o mode l d root).result = .ok ⟨root, d.scripts root, r.parsed, r.errors,
        stats (d.scripts root).length js.length (workers m o js.length) r⟩ := by
  intro js r
  have hp : parse m p o d (jobs d mode l root (d.scripts root)) = (d, r, js.length) :=
    parse_eq_arranged h hsafe (nodup_relative_jobs hr) hm o
  simp only [runAt, hp]
  exact ⟨trivial, trivial, rfl⟩

/-! ### What does not depend on the order -/

/-- The answers to jobs that share no path share none. -/
theorem nodup_text_parsed {r : PoolResult} (hr : Answers outcome js r)
    (hn : (js.map fun j => j.path.text).Nodup) : (r.parsed.map fun f => f.path.text).Nodup := by
  have h := (hr.once.map fun j => j.path.text).nodup_iff.2 hn
  rw [List.map_append, List.map_map, List.map_map] at h
  exact h.of_append_left

theorem nodup_relative_parsed {r : PoolResult} (hr : Answers outcome js r)
    (hn : (js.map Job.relativePath).Nodup) : (r.parsed.map ParsedFile.relativePath).Nodup := by
  have h := (hr.once.map Job.relativePath).nodup_iff.2 hn
  rw [List.map_append, List.map_map, List.map_map] at h
  exact h.of_append_left

end Scan

/-- Bindings of distinct keys can be inserted in any order. -/
theorem SortedMap.insertAll_perm {α β : Type} [Ord α] [Std.TransOrd α] [Std.LawfulEqOrd α]
    (m : SortedMap α β) {l l' : List (α × β)} (h : l.Perm l') (hn : (l.map Prod.fst).Nodup) :
    m.insertAll l = m.insertAll l' := by
  have hn' := (h.map Prod.fst).nodup_iff.1 hn
  have hfind : ∀ k, find? k l = find? k l' := by
    intro k
    ext v
    rw [find?_eq_some_iff_of_nodup hn, find?_eq_some_iff_of_nodup hn', h.mem_iff]
  refine ext_get? fun k => ?_
  rw [get?_insertAll, get?_insertAll, find?_reverse hn, find?_reverse hn', hfind]

theorem Ledger.ext_get? {l k : Ledger} (hs : l.schemaVersion = k.schemaVersion)
    (h : ∀ q, l.get? q = k.get? q) : l = k := by
  have he : l.entries = k.entries := SortedMap.ext_get? fun t => by
    have ht := h (.ofText t)
    rwa [Ledger.get?, Ledger.get?, Path.text_ofText] at ht
  cases l; cases k; cases hs; cases he; rfl

theorem Scan.record_perm (l : Ledger) {fs fs' : List ParsedFile} (h : fs.Perm fs')
    (hn : (fs.map fun f => f.path.text).Nodup) : record l fs = record l fs' := by
  refine Ledger.ext_get? ?_ fun q => ?_
  · rw [schemaVersion_record, schemaVersion_record]
  · unfold Ledger.get?
    rw [entries_record, entries_record, SortedMap.insertAll_perm _ (h.map _)]
    rwa [List.map_map]

/-- The counts of two scans agree, but for the number of workers. -/
structure ScanStats.SameCounts (s t : ScanStats) : Prop where
  discovered : s.filesDiscovered = t.filesDiscovered
  skipped : s.filesSkipped = t.filesSkipped
  parsed : s.filesParsed = t.filesParsed
  failed : s.filesFailed = t.filesFailed
  bytes : s.bytesParsed = t.bytesParsed

theorem Scan.stats_perm {r r' : PoolResult} (hp : r.parsed.Perm r'.parsed)
    (he : r.errors.Perm r'.errors) (discovered jobs w w' : Nat) :
    (stats discovered jobs w r).SameCounts (stats discovered jobs w' r') := by
  have : RightCommutative fun (n : Nat) (f : ParsedFile) => n + f.sizeBytes :=
    ⟨fun n f g => Nat.add_right_comm n f.sizeBytes g.sizeBytes⟩
  exact ⟨rfl, rfl, hp.length_eq, he.length_eq, hp.foldl_eq 0⟩

namespace Session

/-- What a session takes over from a scan does not depend on the order of its files. -/
theorem absorb_congr (s : Session) (l : Ledger) {o o' : ScanOutcome} (hroot : o.root = o'.root)
    (hdiscovered : o.discovered = o'.discovered) (hf : o.files.Perm o'.files)
    (he : o.errors.Perm o'.errors) (hn : (o.files.map ParsedFile.relativePath).Nodup) :
    s.absorb l o = s.absorb l o' := by
  have hledger : (s.absorb l o).ledger = (s.absorb l o').ledger := by
    refine Ledger.ext_get? ?_ fun q => ?_
    · rw [schemaVersion_absorb, schemaVersion_absorb]
    · simp only [get?_ledger_absorb, (he.map _).mem_iff, hdiscovered]
  have hkept : o.errors.foldl (fun t e => t.erase e.relativePath)
        (s.table.filter fun relative _ =>
          (o.discovered.map fun p => p.relativeTo o.root).contains relative) =
      o'.errors.foldl (fun t e => t.erase e.relativePath)
        (s.table.filter fun relative _ =>
          (o'.discovered.map fun p => p.relativeTo o'.root).contains relative) := by
    refine SortedMap.ext_get? fun k => ?_
    rw [SortedMap.get?_foldl_erase, SortedMap.get?_foldl_erase, hdiscovered, hroot]
    simp only [(he.map FileError.relativePath).mem_iff]
  have htable : (s.absorb l o).table = (s.absorb l o').table := by
    rw [table_absorb, table_absorb, hkept]
    exact SortedMap.insertAll_perm _ (hf.map _) (by rwa [keys_extracted])
  have hrest : ∀ o, s.absorb l o =
      { s with ledger := (s.absorb l o).ledger, table := (s.absorb l o).table } := fun _ => rfl
  rw [hrest o, hledger, htable, ← hrest o']

/-- The same session with another way of parsing. -/
def scanning (s : Session) (o : ScanOptions) : Session :=
  { s with options := { s.options with scan := o } }

/-- An analysis whose scan has a result. -/
theorem analyze_of_run {m : Machine} {p : Provider} {s : Session} {d : Disk} {mode : ScanMode}
    {a : ScanOutcome} (o : ScanOptions)
    (hdisk : (Scan.run m p o mode s.ledger d s.root).disk = d)
    (hresult : (Scan.run m p o mode s.ledger d s.root).result = .ok a) :
    let s' := s.absorb (Scan.run m p o mode s.ledger d s.root).ledger a
    let g := Graph.ofFiles d.now s'.table.values
    let stored := if s.options.persist then persist m s' d g else (d, .ok ())
    let r := (s.scanning o).analyze m p d mode
    r.disk = stored.1 ∧ r.session = s'.scanning o ∧
      r.result = stored.2.map fun _ => ⟨g, a.stats, a.errors⟩ := by
  intro s' g stored r
  have hr : r = (s.scanning o).analyze m p d mode := rfl
  unfold analyze at hr
  simp only [scanning, hresult, hdisk] at hr
  rw [hr]
  exact ⟨rfl, rfl, rfl⟩

theorem analyze_of_error {m : Machine} {p : Provider} {s : Session} {d : Disk} {mode : ScanMode}
    {e : ScanError} (o : ScanOptions)
    (hledger : (Scan.run m p o mode s.ledger d s.root).ledger = s.ledger)
    (hresult : (Scan.run m p o mode s.ledger d s.root).result = .error e) :
    let r := (s.scanning o).analyze m p d mode
    r.disk = (Scan.run m p o mode s.ledger d s.root).disk ∧ r.session = s.scanning o ∧
      r.result = .error e := by
  intro r
  have hr : r = (s.scanning o).analyze m p d mode := rfl
  unfold analyze at hr
  simp only [scanning, hresult, hledger] at hr
  rw [hr]
  exact ⟨rfl, rfl, rfl⟩

/-- What is stored of a session depends on its root and its ledger, and on what the device
refuses. -/
theorem persist_congr {m₁ m₂ : Machine} {s₁ s₂ : Session} (hm : m₁.refusal = m₂.refusal)
    (hroot : s₁.root = s₂.root) (hledger : s₁.ledger = s₂.ledger) (d : Disk) (g : Graph) :
    persist m₁ s₁ d g = persist m₂ s₂ d g := by
  unfold persist
  rw [hm, hroot, hledger]

end Session

/-- Two outcomes of a number of jobs under two ways of parsing tell the same of a project. Files
that are parsed in turn by both, or by workers of both, come in one order; those parsed by workers
come in the order of their relative paths. -/
structure Scan.Agree (o₁ o₂ : ScanOptions) (n : Nat) (a b : ScanOutcome) : Prop where
  root : a.root = b.root
  discovered : a.discovered = b.discovered
  alike : isSerial o₁ n = isSerial o₂ n → a.files = b.files ∧ a.errors = b.errors
  sorted : isSerial o₂ n = false →
    (⟨b.files, b.errors⟩ : PoolResult) = PoolResult.sorted ⟨a.files, a.errors⟩
  counts : a.stats.SameCounts b.stats

namespace Scan

open Pool

theorem sorted_sorted (r : PoolResult) : r.sorted.sorted = r.sorted := by
  have h : ∀ {α : Type} (f : α → String) (l : List α),
      ((l.mergeSort fun a b => f a ≤ f b).mergeSort fun a b => f a ≤ f b) =
        l.mergeSort fun a b => f a ≤ f b := fun f l =>
    List.mergeSort_of_pairwise ((pairwise_mergeSort_text f l).imp decide_eq_true)
  unfold PoolResult.sorted
  rw [h, h]

theorem sorted_arranged (o : ScanOptions) (n : Nat) (r : PoolResult) :
    (arranged o n r).sorted = r.sorted := by
  unfold arranged
  split
  · rfl
  · exact sorted_sorted r

theorem agree_arranged (d : Disk) (root : Path) (o₁ o₂ : ScanOptions) (n w₁ w₂ : Nat)
    (r : PoolResult) :
    Agree o₁ o₂ n
      ⟨root, d.scripts root, (arranged o₁ n r).parsed, (arranged o₁ n r).errors,
        stats (d.scripts root).length n w₁ (arranged o₁ n r)⟩
      ⟨root, d.scripts root, (arranged o₂ n r).parsed, (arranged o₂ n r).errors,
        stats (d.scripts root).length n w₂ (arranged o₂ n r)⟩ where
  root := rfl
  discovered := rfl
  alike h := by
    simp only [arranged, h, and_self]
  sorted h := by
    refine Eq.trans ?_ (sorted_arranged o₁ n r).symm
    show arranged o₂ n r = _
    rw [arranged, h, if_neg (by simp)]
  counts := stats_perm
    ((parsed_arranged_perm o₁ n r).trans (parsed_arranged_perm o₂ n r).symm)
    ((errors_arranged_perm o₁ n r).trans (errors_arranged_perm o₂ n r).symm) _ _ _ _

variable {p : Provider} {parse : Path → Except IoError Bytes → Attempt} {m₁ m₂ : Machine} {d : Disk}
  {root : Path}

/-- Two scans under two ways of parsing. -/
theorem runAt_agree (hp : p.DependsOnFile parse) (hsafe : ∀ path b c, parse path b ≠ .crashed c)
    (hm₁ : m₁.Fair) (hm₂ : m₂.Fair)
    (hw : ∀ time es, d.item root = .ok (.folder time es) → (Item.folder time es).WellNamed)
    (hrel : ((d.scripts root).map fun q => q.relativeTo root).Nodup) (o₁ o₂ : ScanOptions)
    (mode : ScanMode) (l : Ledger) :
    let n := (jobs d mode l root (d.scripts root)).length
    (runAt m₁ p o₁ mode l d root).disk = d ∧ (runAt m₂ p o₂ mode l d root).disk = d ∧
      (runAt m₁ p o₁ mode l d root).ledger = (runAt m₂ p o₂ mode l d root).ledger ∧
      ∃ a b, (runAt m₁ p o₁ mode l d root).result = .ok a ∧
        (runAt m₂ p o₂ mode l d root).result = .ok b ∧ a.root = root ∧ Agree o₁ o₂ n a b ∧
        ∀ s : Session, s.absorb (runAt m₁ p o₁ mode l d root).ledger a =
          s.absorb (runAt m₁ p o₁ mode l d root).ledger b := by
  intro n
  have hfix : Fixed p (jobs d mode l root (d.scripts root)) (outcomeOn p d) (· = d) :=
    hp.fixed fun _ _ => rfl
  have hcrash : ∀ j ∈ jobs d mode l root (d.scripts root), ∀ c, outcomeOn p d j ≠ .error c :=
    fun j _ c hc => hsafe _ _ _ (hp.crashed_of_outcomeOn hc)
  obtain ⟨hd₁, hl₁, hr₁⟩ := runAt_eq_arranged hfix hcrash hrel hm₁ o₁
  obtain ⟨hd₂, hl₂, hr₂⟩ := runAt_eq_arranged hfix hcrash hrel hm₂ o₂
  let r := ofMessages ((jobs d mode l root (d.scripts root)).map (ownMessage (outcomeOn p d)))
  have hans : Answers (outcomeOn p d) (jobs d mode l root (d.scripts root)) (arranged o₁ n r) :=
    answers_arranged fun j hj _ => hfix.job_eq rfl hj
  have hparsed : (arranged o₁ n r).parsed.Perm (arranged o₂ n r).parsed :=
    (parsed_arranged_perm o₁ n r).trans (parsed_arranged_perm o₂ n r).symm
  have herrors : (arranged o₁ n r).errors.Perm (arranged o₂ n r).errors :=
    (errors_arranged_perm o₁ n r).trans (errors_arranged_perm o₂ n r).symm
  refine ⟨hd₁, hd₂, ?_, _, _, hr₁, hr₂, rfl, agree_arranged d root o₁ o₂ n _ _ r, fun s => ?_⟩
  · rw [hl₁, hl₂]
    exact record_perm l hparsed (nodup_text_parsed hans (nodup_text_jobs hw hrel))
  · exact s.absorb_congr _ rfl rfl hparsed herrors
      (nodup_relative_parsed hans (nodup_relative_jobs hrel))

end Scan

open Disk Scan

/-- How files are parsed cannot be seen in what is found. If no file crashes the parser and no two
scripts of a well named tree share a relative path, then two scans that differ in their options, in
the number of workers and in the order in which these are heard leave the same ledger and tell the
same of the project; and two analyses leave the same disk and the same session and give the same
graph. -/
theorem parsing_strategy_is_unobservable {p : Provider}
    {parse : Path → Except IoError Bytes → Attempt} {m₁ m₂ : Machine} {d : Disk} {s : Session}
    (hp : p.DependsOnFile parse) (hsafe : ∀ path b c, parse path b ≠ .crashed c)
    (hm₁ : m₁.Fair) (hm₂ : m₂.Fair) (hdevice : m₁.refusal = m₂.refusal)
    (hw : ∀ root time es, resolveRoot d s.root = .ok root → d.item root = .ok (.folder time es) →
      (Item.folder time es).WellNamed)
    (hrel : ∀ root, resolveRoot d s.root = .ok root →
      ((d.scripts root).map fun q => q.relativeTo root).Nodup)
    (o₁ o₂ : ScanOptions) (mode : ScanMode) :
    let scan₁ := run m₁ p o₁ mode s.ledger d s.root
    let scan₂ := run m₂ p o₂ mode s.ledger d s.root
    let r₁ := (s.scanning o₁).analyze m₁ p d mode
    let r₂ := (s.scanning o₂).analyze m₂ p d mode
    scan₁.disk = d ∧ scan₂.disk = d ∧ scan₁.ledger = scan₂.ledger ∧
      r₁.disk = r₂.disk ∧ r₁.session.ledger = r₂.session.ledger ∧
      r₁.session.table = r₂.session.table ∧
      (∀ root, resolveRoot d s.root = .ok root → p.init = .ok () →
        ∃ a b, scan₁.result = .ok a ∧ scan₂.result = .ok b ∧ a.root = root ∧
          Agree o₁ o₂ (jobs d mode s.ledger root (d.scripts root)).length a b ∧
          ∃ g stored, r₁.result = .map (fun _ : Unit => ⟨g, a.stats, a.errors⟩) stored ∧
            r₂.result = .map (fun _ : Unit => ⟨g, b.stats, b.errors⟩) stored ∧
            (s.options.persist = false → stored = .ok ())) ∧
      ((∃ e, resolveRoot d s.root = .error e) ∨ (∃ e, p.init = .error e) →
        ∃ e, scan₁.result = .error e ∧ scan₂.result = .error e ∧ r₁.result = .error e ∧
          r₂.result = .error e) := by
  intro scan₁ scan₂ r₁ r₂
  rcases run_cases p mode s.ledger d s.root with ⟨e, hfailed, hrun⟩ | ⟨root, hroot, hinit, hrun⟩
  · have hr := fun m o => Session.analyze_of_error o (congrArg Report.ledger (hrun m o))
      (congrArg Report.result (hrun m o))
    simp only [hrun] at hr
    obtain ⟨hd₁, hs₁, he₁⟩ := hr m₁ o₁
    obtain ⟨hd₂, hs₂, he₂⟩ := hr m₂ o₂
    simp only [scan₁, scan₂, r₁, r₂, hrun, hd₁, hd₂, hs₁, hs₂, he₁, he₂]
    refine ⟨trivial, trivial, trivial, trivial, rfl, rfl, fun root hroot hinit => ?_, ?_⟩
    · rcases hfailed with ⟨x, hx⟩ | ⟨x, hx⟩
      · cases hx.symm.trans hroot
      · cases hx.symm.trans hinit
    · exact fun _ => ⟨e, rfl, rfl, rfl, rfl⟩
  · obtain ⟨hd₁, hd₂, hledger, a, b, ha, hb, haroot, hagree, habsorb⟩ :=
      runAt_agree hp hsafe hm₁ hm₂ (fun time es => hw root time es hroot) (hrel root hroot)
        o₁ o₂ mode s.ledger
    rw [← hrun m₁ o₁] at hd₁ ha habsorb hledger
    rw [← hrun m₂ o₂] at hd₂ hb hledger
    -- both analyses take over the same, so they have the same graph and the same to store
    have hsame := (habsorb s).trans (congrArg (s.absorb · b) hledger)
    obtain ⟨hdisk₁, hs₁, hr₁⟩ := Session.analyze_of_run o₁ hd₁ ha
    obtain ⟨hdisk₂, hs₂, hr₂⟩ := Session.analyze_of_run o₂ hd₂ hb
    rw [hsame, Session.persist_congr hdevice rfl rfl] at hdisk₁ hr₁
    rw [hsame] at hs₁
    refine ⟨hd₁, hd₂, hledger, hdisk₁.trans hdisk₂.symm, ?_, ?_, ?_, ?_⟩
    · simp only [r₁, r₂, hs₁, hs₂]
      rfl
    · simp only [r₁, r₂, hs₁, hs₂]
      rfl
    · intro root' hroot' _
      cases hroot.symm.trans hroot'
      refine ⟨a, b, ha, hb, haroot, hagree, _, _, hr₁, hr₂, fun hmemory => ?_⟩
      rw [hmemory]
      rfl
    · rintro (⟨x, hx⟩ | ⟨x, hx⟩)
      · cases hroot.symm.trans hx
      · cases hinit.symm.trans hx

/-- Two scripts whose paths and relative paths are in different orders, one of them no text, parsed
in turn and by two workers. -/
theorem parsing_strategy_is_unobservable_for_two_scripts :
    let scripts : List (Bytes × Item) :=
      [("a", .folder 0 [("b.gd", .file [] 5000000)]), ("a.gd", .file [255] 6000000)]
    let d := holding scripts
    let parse := Provider.attemptOn fun _ => default
    let p := Provider.reading parse
    let m₁ : Machine := ⟨4, none, fun _ _ => none, List.flatten, fun _ _ => "task 1 panicked"⟩
    let m₂ : Machine := ⟨1, some "3", fun _ _ => none, List.flatten, fun _ _ => "task 2 panicked"⟩
    let s : Session := ⟨pathOf ["p"], ⟨{}, false⟩, .empty, .empty⟩
    let o₁ : ScanOptions := {}
    let o₂ : ScanOptions := ⟨0, some 2⟩
    p.DependsOnFile parse ∧ (∀ path b c, parse path b ≠ .crashed c) ∧ m₁.Fair ∧ m₂.Fair ∧
      m₁.refusal = m₂.refusal ∧
      (∀ root time es, resolveRoot d s.root = .ok root → d.item root = .ok (.folder time es) →
        (Item.folder time es).WellNamed) ∧
      (∀ root, resolveRoot d s.root = .ok root →
        ((d.scripts root).map fun q => q.relativeTo root).Nodup) ∧
      d.scripts s.root = [pathOf ["p", "a", "b.gd"], pathOf ["p", "a.gd"]] ∧
      ∃ a b g, (run m₁ p o₁ .full s.ledger d s.root).result = .ok a ∧
        (run m₂ p o₂ .full s.ledger d s.root).result = .ok b ∧ Agree o₁ o₂ 2 a b ∧
        (⟨b.files, b.errors⟩ : PoolResult) = PoolResult.sorted ⟨a.files, a.errors⟩ ∧
        ((s.scanning o₁).analyze m₁ p d .full).result = .ok ⟨g, a.stats, a.errors⟩ ∧
        ((s.scanning o₂).analyze m₂ p d .full).result = .ok ⟨g, b.stats, b.errors⟩ := by
  intro scripts d parse p m₁ m₂ s o₁ o₂
  have hp : p.DependsOnFile parse := Provider.dependsOnFile_reading parse
  have hsafe : ∀ path b c, parse path b ≠ .crashed c := Provider.attemptOn_ne_crashed _
  have hm₁ : m₁.Fair := Pool.interleaves_flatten
  have hm₂ : m₂.Fair := Pool.interleaves_flatten
  have hnamed : Discovery.Named (outside scripts) := .of_names (by decide) (by decide)
  have hproject : Project d ["p"] scripts := project_holding hnamed
  have hresolve : resolveRoot d s.root = .ok (pathOf ["p"]) := resolveRoot_holding scripts
  have hw : ∀ root time es, resolveRoot d s.root = .ok root →
      d.item root = .ok (.folder time es) → (Item.folder time es).WellNamed := by
    intro root time es hroot hi
    cases hresolve.symm.trans hroot
    obtain ⟨t, hitem, -⟩ := hproject.folder
    cases hitem.symm.trans hi
    exact Item.wellNamed_folder.2 (Item.wellNamed_folder.1 hnamed.wellNamed)
  have hrel : ∀ root, resolveRoot d s.root = .ok root →
      ((d.scripts root).map fun q => q.relativeTo root).Nodup := by
    intro root hroot
    cases hresolve.symm.trans hroot
    exact hproject.nodup_scripts.map_on fun a ha b hb => hproject.relativeTo_inj ha hb
  have hbelow : Discovery.below true scripts = ([["a", "b.gd"], ["a.gd"]] : List Location) := by
    decide +kernel
  have hscripts : d.scripts (pathOf ["p"]) = [pathOf ["p", "a", "b.gd"], pathOf ["p", "a.gd"]] :=
    scripts_holding hnamed hbelow (List.pairwise_pair.2 (by decide +kernel))
  obtain ⟨-, -, -, -, -, -, hfound, -⟩ :=
    parsing_strategy_is_unobservable hp hsafe hm₁ hm₂ rfl hw hrel o₁ o₂ .full
  obtain ⟨a, b, ha, hb, -, hagree, g, stored, hr₁, hr₂, hstored⟩ := hfound _ hresolve rfl
  have hjobs : (jobs d .full s.ledger (pathOf ["p"]) (d.scripts (pathOf ["p"]))).length = 2 := by
    have hdue : Project.due d ["p"] .full s.ledger = _ := Project.due_full
    refine (congrArg List.length hdue).trans ?_
    rw [List.length_map, hscripts]
    rfl
  rw [hjobs] at hagree
  simp only [hstored rfl, Except.map] at hr₁ hr₂
  exact ⟨hp, hsafe, hm₁, hm₂, rfl, hw, hrel, hscripts, a, b, g, ha, hb, hagree, hagree.sorted rfl,
    hr₁, hr₂⟩

end SignalAtlas
