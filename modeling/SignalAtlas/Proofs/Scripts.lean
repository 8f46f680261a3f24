import Mathlib.Tactic
import SignalAtlas.Proofs.Accounting
import SignalAtlas.Proofs.Discoveries
import SignalAtlas.Proofs.Saving

/-!
# The scripts of a project

What `Disk.scripts` finds below a project's folder. The names on the way to the folder are texts;
what it holds besides its state is well named, and the names that lead to scripts are plain
(`Discovery.Named`). Then every script is a file at a place of its own (`Project.script_of_mem`), no
two jobs of a scan share a path or a relative path (`Project.nodup_key_jobs`,
`Project.nodup_relative_jobs`), and the state folder contributes no script
(`Discovery.below_outside`).
-/

namespace SignalAtlas

/-- Names that lead from a project's folder to a script in it. -/
structure Proper (names : Location) : Prop where
  ne_nil : names ≠ []
  name : ∀ s ∈ names, IsName s
  plain : ∀ s ∈ names, IsPlain s

mutual

/-- The names of entries and of all that is below them. -/
def Item.namesIn : List (Bytes × Item) → List Bytes
  | [] => []
  | (name, it) :: es => name :: (it.namesOf ++ namesIn es)

/-- The names of all that is below an item. -/
def Item.namesOf : Item → List Bytes
  | .folder _ es => namesIn es
  | _ => []

end

namespace Discovery

open Disk (outside)

/-- Well named entries whose scripts are found by plain names. -/
structure Named (es : List (Bytes × Item)) : Prop where
  wellNamed : (Item.folder 0 es).WellNamed
  plain : ∀ names ∈ below true es, ∀ s ∈ names, IsPlain s

mutual

theorem mem_namesIn_of_mem_below {top : Bool} {s : Bytes} :
    ∀ {es : List (Bytes × Item)} {names : Location}, names ∈ below top es → s ∈ names →
      s ∈ Item.namesIn es
  | [], _, hm, _ => nomatch hm
  | (name, it) :: es, names, hm, hs => by
    rw [Item.namesIn, List.mem_cons, List.mem_append]
    rw [below] at hm
    rcases List.mem_append.1 hm with hm | hm
    · obtain ⟨rest, hr, rfl⟩ := List.mem_map.1 hm
      exact (List.mem_cons.1 hs).imp_right fun hs => .inl (mem_namesOf_of_mem_scriptsOf hr hs)
    · exact .inr (.inr (mem_namesIn_of_mem_below hm hs))

theorem mem_namesOf_of_mem_scriptsOf {top : Bool} {name s : Bytes} :
    ∀ {it : Item} {names : Location}, names ∈ scriptsOf top name it → s ∈ names → s ∈ it.namesOf
  | .file _ _, names, hm, hs => by
    rw [scriptsOf] at hm
    split at hm
    · rw [List.mem_singleton.1 hm] at hs
      cases hs
    · cases hm
  | .link _, _, hm, _ => nomatch hm
  | .folder _ es, names, hm, hs => by
    rw [scriptsOf] at hm
    split at hm
    · cases hm
    · exact mem_namesIn_of_mem_below hm hs

end

/-- Plain names throughout are plain names of the scripts. -/
theorem Named.of_names {es : List (Bytes × Item)} (hw : (Item.folder 0 es).WellNamed)
    (hp : ∀ s ∈ Item.namesIn es, IsPlain s) : Named es :=
  ⟨hw, fun _ hm s hs => hp s (mem_namesIn_of_mem_below hm hs)⟩

theorem at?_folder_time {es : List (Bytes × Item)} {names : Location} (hne : names ≠ [])
    (t u : Int) : (Item.folder t es).at? names = (Item.folder u es).at? names := by
  cases names with
  | nil => exact absurd rfl hne
  | cons s rest => rw [Item.at?_cons_folder, Item.at?_cons_folder]

/-- A script among entries is a file at its place. -/
theorem Named.file_of_mem_below {es : List (Bytes × Item)} {names : Location} (h : Named es)
    (hm : names ∈ below true es) :
    Proper names ∧ ∃ b time, ∀ t, (Item.folder t es).at? names = some (.file b time) := by
  obtain ⟨-, b, time, hat⟩ := (mem_below_iff h.wellNamed).1 hm
  have hne : names ≠ [] := by
    rintro rfl
    cases hat
  exact ⟨⟨hne, h.wellNamed.isName hat, h.plain names hm⟩, b, time,
    fun t => (at?_folder_time hne t 0).trans hat⟩

/-- Nothing that is named like the state folder counts as a script or holds one. -/
theorem scriptsOf_stateFolder (top : Bool) (it : Item) :
    scriptsOf top Store.stateFolder it = [] := by
  cases it with
  | file b time => rw [scriptsOf, if_neg (by decide)]
  | link target => rfl
  | folder time es => rw [scriptsOf, if_pos (by cases top <;> decide)]

/-- The state folder contributes no script. -/
theorem below_outside (top : Bool) (es : List (Bytes × Item)) :
    below top (outside es) = below top es := by
  unfold outside
  induction es with
  | nil => rfl
  | cons e es ih =>
    obtain ⟨name, it⟩ := e
    by_cases hn : name = Store.stateFolder
    · rw [List.filter_cons_of_neg (by simpa using hn), ih, below, hn, scriptsOf_stateFolder]
      rfl
    · rw [List.filter_cons_of_pos (by simpa using hn), below, below, ih]

theorem at?_outside {t : Int} {es : List (Bytes × Item)} {names : Location} {it : Item}
    (hne : names ≠ []) (h : (Item.folder t (outside es)).at? names = some it) :
    (Item.folder t es).at? names = some it := by
  cases names with
  | nil => exact absurd rfl hne
  | cons s rest =>
    rw [Item.at?_cons_folder, outside, Item.lookup_filter_ne] at h
    rw [Item.at?_cons_folder]
    split at h
    · cases h
    · exact h

end Discovery

/-! ### Projects -/

namespace Proper

variable {loc names : Location}

theorem isName_append (h : Proper names) (hn : ∀ s ∈ loc, IsName s) :
    ∀ s ∈ loc ++ names, IsName s :=
  fun s hs => (List.mem_append.1 hs).elim (hn s) (h.name s)

theorem relativeTo (h : Proper names) (hn : ∀ s ∈ loc, IsName s) :
    (Disk.pathOf (loc ++ names)).relativeTo (Disk.pathOf loc) = (joinSlashes names).lossy := by
  rw [Disk.relativeTo_pathOf hn h.name h.ne_nil, Disk.slashed_lossy]
  exact noBackslash_joinSlashes.2 fun s hs => (h.plain s hs).noBackslash

theorem isText (h : Proper names) : ∀ s ∈ names, s.IsText := fun s hs => (h.plain s hs).isText

theorem inj {m : Location} (h : Proper names) (hm : Proper m)
    (he : (joinSlashes names).lossy = (joinSlashes m).lossy) : names = m :=
  Disk.lossy_joinSlashes_inj h.name hm.name h.ne_nil hm.ne_nil h.isText hm.isText he

/-- A script is named by what is shown of its path. -/
theorem ofText_text (h : Proper names) (hl : ∀ s ∈ loc, s.IsText) :
    Path.ofText (Disk.pathOf (loc ++ names)).text = Disk.pathOf (loc ++ names) :=
  Disk.ofText_text_pathOf fun s hs => (List.mem_append.1 hs).elim (hl s) (h.isText s)

end Proper

/-- A project that can be scanned: its folder is found at a place whose names are texts, and what it
holds besides its state is named. -/
structure Project (d : Disk) (loc : Location) (es : List (Bytes × Item)) : Prop where
  isName : ∀ s ∈ loc, IsName s
  isText : ∀ s ∈ loc, s.IsText
  folder : ∃ time, d.item (Disk.pathOf loc) = .ok (.folder time es) ∧
    d.root.at? loc = some (.folder time es)
  named : Discovery.Named (Disk.outside es)

namespace Project

open Disk Discovery

variable {d : Disk} {loc : Location} {es : List (Bytes × Item)} {q : Path}

theorem of_resolveRoot {r : Path} (hn : ∀ s ∈ loc, IsName s) (ht : ∀ s ∈ loc, s.IsText)
    (hf : d.LinkFree loc)
    (hnamed : ∀ time es, d.root.at? loc = some (.folder time es) → Named (outside es))
    (h : Scan.resolveRoot d (pathOf loc) = .ok r) : r = pathOf loc ∧ ∃ es, Project d loc es := by
  obtain ⟨hr, time, es, hi, hat⟩ := folder_of_resolveRoot hn hf h
  exact ⟨hr, es, hn, ht, ⟨time, hi, hat⟩, hnamed time es hat⟩

theorem of_folder {r : Path} {time : Int} (hn : ∀ s ∈ loc, IsName s) (ht : ∀ s ∈ loc, s.IsText)
    (hat : d.root.at? loc = some (.folder time es)) (hnamed : Named (outside es))
    (h : Scan.resolveRoot d (pathOf loc) = .ok r) : r = pathOf loc ∧ Project d loc es := by
  obtain ⟨hr, time', es', hi, hat'⟩ := folder_of_resolveRoot hn (.of_folder hat) h
  rw [hat, Option.some_inj, Item.folder.injEq] at hat'
  obtain ⟨rfl, rfl⟩ := hat'
  exact ⟨hr, hn, ht, ⟨time, hi, hat⟩, hnamed⟩

theorem file_of_mem (h : Project d loc es) {names : Location} (hm : names ∈ below true es) :
    Proper names ∧ ∃ b time, ∀ t, (Item.folder t (outside es)).at? names = some (.file b time) := by
  rw [← below_outside] at hm
  exact h.named.file_of_mem_below hm

theorem scripts_eq (h : Project d loc es) :
    d.scripts (pathOf loc) =
      ((below true es).map fun names => pathOf (loc ++ names)).mergeSort Path.le := by
  obtain ⟨time, hi, -⟩ := h.folder
  unfold Disk.scripts
  rw [hi]
  show ((below true es).map (pathBelow (pathOf loc))).mergeSort Path.le = _
  congr 1
  refine List.map_congr_left fun names hm => ?_
  exact pathBelow_pathOf h.isName (h.file_of_mem hm).1.name

theorem mem_scripts (h : Project d loc es) :
    q ∈ d.scripts (pathOf loc) ↔ ∃ names ∈ below true es, pathOf (loc ++ names) = q := by
  rw [h.scripts_eq, List.mem_mergeSort, List.mem_map]

/-- A script is found by its path, unless that is too long. -/
theorem item_of_mem (h : Project d loc es) {names : Location} {b : Bytes} {time : Int}
    (hp : Proper names)
    (hat : ∀ t, (Item.folder t (outside es)).at? names = some (.file b time)) :
    d.root.at? (loc ++ names) = some (.file b time) ∧
      d.item (pathOf (loc ++ names)) =
        (barrier? (loc ++ names)).elim (.ok (.file b time)) .error := by
  obtain ⟨t, -, hfolder⟩ := h.folder
  have hplace : d.root.at? (loc ++ names) = some (.file b time) := by
    rw [Item.at?_append, hfolder, Option.bind_some]
    exact at?_outside hp.ne_nil (hat t)
  exact ⟨hplace, item_pathOf (by simp [hp.ne_nil]) (hp.isName_append h.isName) hplace
    (Item.notLink_file b time)⟩

/-- Every script has a place of its own. -/
theorem script_of_mem (h : Project d loc es) (hq : q ∈ d.scripts (pathOf loc)) :
    ∃ names, Proper names ∧ q = pathOf (loc ++ names) := by
  obtain ⟨names, hm, rfl⟩ := h.mem_scripts.1 hq
  exact ⟨names, (h.file_of_mem hm).1, rfl⟩

theorem relativeTo_inj (h : Project d loc es) {a b : Path} (ha : a ∈ d.scripts (pathOf loc))
    (hb : b ∈ d.scripts (pathOf loc))
    (he : a.relativeTo (pathOf loc) = b.relativeTo (pathOf loc)) : a = b := by
  obtain ⟨m, hm, rfl⟩ := h.script_of_mem ha
  obtain ⟨n, hn, rfl⟩ := h.script_of_mem hb
  rw [hm.relativeTo h.isName, hn.relativeTo h.isName] at he
  rw [hm.inj hn he]

/-- A script is named by what is shown of its path. -/
theorem ofText_text_of_mem (h : Project d loc es) (hq : q ∈ d.scripts (pathOf loc)) :
    Path.ofText q.text = q := by
  obtain ⟨names, hp, rfl⟩ := h.script_of_mem hq
  exact hp.ofText_text h.isText

theorem text_inj (h : Project d loc es) {a b : Path} (ha : a ∈ d.scripts (pathOf loc))
    (hb : b ∈ d.scripts (pathOf loc)) (he : a.text = b.text) : a = b := by
  rw [← h.ofText_text_of_mem ha, he, h.ofText_text_of_mem hb]

theorem components_inj (h : Project d loc es) {a b : Path} (ha : a ∈ d.scripts (pathOf loc))
    (hb : b ∈ d.scripts (pathOf loc)) (he : a.components = b.components) : a = b := by
  obtain ⟨m, hm, rfl⟩ := h.script_of_mem ha
  obtain ⟨n, hn, rfl⟩ := h.script_of_mem hb
  have hs := (same_pathOf (hm.isName_append h.isName) (hn.isName_append h.isName)).1
    (Pool.same_iff.2 he)
  rw [hs]

theorem nodup_scripts (h : Project d loc es) : (d.scripts (pathOf loc)).Nodup := by
  rw [h.scripts_eq, (List.mergeSort_perm _ _).nodup_iff]
  have hnodup : (below true es).Nodup := by
    rw [← below_outside]
    exact nodup_below h.named.wellNamed
  refine hnodup.map_on fun a ha b hb hab => ?_
  have hpa := (h.file_of_mem ha).1
  have hpb := (h.file_of_mem hb).1
  exact List.append_cancel_left
    (pathOf_inj (hpa.isName_append h.isName) (hpb.isName_append h.isName) hab)

/-! ### Jobs -/

variable {mode : ScanMode} {l : Ledger} {j : Job}

theorem mem_jobs :
    j ∈ Scan.jobs d mode l (pathOf loc) (d.scripts (pathOf loc)) ↔
      ∃ q ∈ d.scripts (pathOf loc), (mode = .full ∨ l.isStale d q = true) ∧
        Scan.job (pathOf loc) q = j := by
  unfold Scan.jobs
  simp [List.mem_map, List.mem_filter, and_assoc]

theorem nodup_map_jobs {α : Type} (h : Project d loc es) (f : Job → α)
    (hf : ∀ a ∈ d.scripts (pathOf loc), ∀ b ∈ d.scripts (pathOf loc),
      f (Scan.job (pathOf loc) a) = f (Scan.job (pathOf loc) b) → a = b) :
    ((Scan.jobs d mode l (pathOf loc) (d.scripts (pathOf loc))).map f).Nodup := by
  unfold Scan.jobs
  rw [List.map_map]
  refine (h.nodup_scripts.filter _).map_on fun a ha b hb hab => ?_
  exact hf a (List.mem_of_mem_filter ha) b (List.mem_of_mem_filter hb) hab

theorem nodup_key_jobs (h : Project d loc es) :
    ((Scan.jobs d mode l (pathOf loc) (d.scripts (pathOf loc))).map Pool.key).Nodup :=
  h.nodup_map_jobs Pool.key fun _ ha _ hb => h.components_inj ha hb

theorem nodup_relative_jobs (h : Project d loc es) :
    ((Scan.jobs d mode l (pathOf loc) (d.scripts (pathOf loc))).map Job.relativePath).Nodup :=
  h.nodup_map_jobs Job.relativePath fun _ ha _ hb => h.relativeTo_inj ha hb

end Project

end SignalAtlas
