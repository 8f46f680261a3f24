import Mathlib.Tactic
import SignalAtlas.Project.Session
import SignalAtlas.Proofs.Buckets
import SignalAtlas.Proofs.Saving

/-!
# Storing and restoring the state of a project

A session stores its graph and then its ledger, each through a temporary file of its own.
`Session.persist_effect` lists the three ways in which that can end: with the graph as it was, with
a new graph beside the old ledger, or with both new. The project itself is left alone in each case.

A session that is opened later finds in its table the facts of the graph and, without facts, the
other files of the ledger (`Session.get?_restored`).
-/

namespace SignalAtlas

open Disk

variable {d : Disk} {loc : Location}

namespace Store

theorem statePath_pathOf {name : Bytes} (hn : ∀ s ∈ loc, IsName s) (hname : IsName name) :
    statePath (pathOf loc) name = pathOf (statePlace loc name) := by
  have hstate : IsName stateFolder := by decide
  unfold statePath statePlace
  rw [join_pathOf hn hstate, join_pathOf (isName_concat hn hstate) hname]

/-- The name of the temporary file of the graph. -/
def graphTemporary : Bytes := "signal_graph.json.tmp"

/-- The name of the temporary file of the ledger. -/
def ledgerTemporary : Bytes := "ledger.json.tmp"

/-- The temporary file of a file of the state folder; `front` is what stands before the
extension. -/
theorem temporary_statePlace (front : Bytes) {file temp : Bytes} (hn : ∀ s ∈ loc, IsName s)
    (hfront : IsName front) (hfile : IsName file) (hcut : file = front ++ Text.bytes "json")
    (hsplit : (Path.splitExtension file).2 = some (Text.bytes "json"))
    (htemp : temp = (Path.splitExtension front).1 ++ Text.bytes ".json.tmp") :
    temporary (pathOf (statePlace loc file)) = pathOf (statePlace loc temp) := by
  subst hcut htemp
  exact temporary_pathOf (isName_concat hn (by decide)) hfront hfile hsplit

theorem temporary_graph (hn : ∀ s ∈ loc, IsName s) :
    temporary (pathOf (statePlace loc graphFile)) = pathOf (statePlace loc graphTemporary) :=
  temporary_statePlace "signal_graph." hn (by decide) (by decide) (by decide) (by decide)
    (by decide)

theorem temporary_ledger (hn : ∀ s ∈ loc, IsName s) :
    temporary (pathOf (statePlace loc Ledger.fileName)) =
      pathOf (statePlace loc ledgerTemporary) :=
  temporary_statePlace "ledger." hn (by decide) (by decide) (by decide) (by decide) (by decide)

theorem save_effect (h : d.Ready loc) (hn : ∀ s ∈ loc, IsName s) (refusal : Refusal) (g : Graph) :
    d.SaveEffect loc graphFile graphTemporary (Text.bytes g.toJson.pretty)
      (save refusal d (pathOf loc) g) := by
  unfold save graphPath
  rw [statePath_pathOf hn (by decide)]
  exact h.save_effect hn (by decide) (by decide) (by decide) (temporary_graph hn) refusal _

end Store

theorem Ledger.persist_effect (h : d.Ready loc) (hn : ∀ s ∈ loc, IsName s) (refusal : Refusal)
    (l : Ledger) :
    d.SaveEffect loc Ledger.fileName Store.ledgerTemporary (Text.bytes l.toJson.pretty)
      (l.persist refusal d (Session.ledgerPath (pathOf loc))) := by
  unfold Ledger.persist Session.ledgerPath
  rw [Store.statePath_pathOf hn (by decide)]
  exact h.save_effect hn (by decide) (by decide) (by decide) (Store.temporary_ledger hn) refusal _

namespace Session

/-- A graph is stored in a project. -/
def StoresGraph (d : Disk) (loc : Location) (g : Graph) : Prop :=
  d.Stores loc Store.graphFile (Text.bytes g.toJson.pretty)

/-- A ledger is stored in a project. -/
def StoresLedger (d : Disk) (loc : Location) (l : Ledger) : Prop :=
  d.Stores loc Ledger.fileName (Text.bytes l.toJson.pretty)

/-- How storing a graph and a ledger can end: with neither stored, with the graph only, or with
both. -/
inductive PersistEnd (d : Disk) (loc : Location) (g : Graph) (l : Ledger)
    (result : Disk × Except ScanError Unit) : Prop
  | neither (e : IoError) (failure : result.2 = .error (.graph e))
      (graph : result.1.stored loc Store.graphFile = d.stored loc Store.graphFile)
      (ledger : result.1.stored loc Ledger.fileName = d.stored loc Ledger.fileName)
  | graphOnly (e : IoError) (failure : result.2 = .error (.io e))
      (graph : StoresGraph result.1 loc g)
      (ledger : result.1.stored loc Ledger.fileName = d.stored loc Ledger.fileName)
  | both (success : result.2 = .ok ()) (graph : StoresGraph result.1 loc g)
      (ledger : StoresLedger result.1 loc l)

/-- What storing a graph and a ledger leaves behind. -/
theorem persist_effect {s : Session} (h : d.Ready loc) (hn : ∀ s ∈ loc, IsName s)
    (hroot : s.root = pathOf loc) (m : Machine) (g : Graph) :
    (persist m s d g).1.Ready loc ∧ d.SameOutside (persist m s d g).1 loc ∧
      PersistEnd d loc g s.ledger (persist m s d g) := by
  have hgraph := Store.save_effect h hn m.refusal g
  unfold persist
  rw [hroot]
  rcases hs : Store.save m.refusal d (pathOf loc) g with ⟨d₁, e | u⟩
  · rw [hs] at hgraph
    exact ⟨hgraph.ready, hgraph.outside, .neither e rfl (hgraph.kept nofun)
      (hgraph.others _ (by decide) (by decide))⟩
  · rw [hs] at hgraph
    have hledger := Ledger.persist_effect hgraph.ready hn m.refusal s.ledger
    have hothers := hgraph.others Ledger.fileName (by decide) (by decide)
    obtain ⟨hshort, time, hnew⟩ := hgraph.saved rfl
    have hkeep : ∀ {result : Disk × Except IoError Unit}, d₁.SaveEffect loc Ledger.fileName
        Store.ledgerTemporary (Text.bytes s.ledger.toJson.pretty) result →
        StoresGraph result.1 loc g := fun heffect =>
      ⟨hshort, time, (heffect.others Store.graphFile (by decide) (by decide)).trans hnew⟩
    rcases hl : s.ledger.persist m.refusal d₁ (ledgerPath (pathOf loc)) with ⟨d₂, e | u⟩
    · rw [hl] at hledger
      simp only [hl]
      refine ⟨hledger.ready, hgraph.outside.trans hledger.outside,
        .graphOnly e rfl (hkeep hledger) ?_⟩
      exact (hledger.kept nofun).trans hothers
    · rw [hl] at hledger
      simp only [hl]
      exact ⟨hledger.ready, hgraph.outside.trans hledger.outside,
        .both rfl (hkeep hledger) (hledger.saved rfl)⟩

/-- Nothing stands in the way of the state of a project: the path of its folder is not too long,
there is no file in its place, and its files are clear. -/
structure Storable (d : Disk) (loc : Location) : Prop where
  short : barrier? (loc ++ [Store.stateFolder]) = none
  folder : ∀ b time, d.root.at? (loc ++ [Store.stateFolder]) ≠ some (.file b time)
  clear : ∀ name ∈ [Store.graphFile, Store.graphTemporary, Ledger.fileName, Store.ledgerTemporary],
    d.Clear loc name

theorem Storable.of_saveEffect {name temp : String} {b : Bytes}
    {result : Disk × Except IoError Unit} (hs : Storable d loc)
    (h : d.SaveEffect loc name temp b result) : Storable result.1 loc :=
  ⟨hs.short, fun c time hc => hs.folder c time (h.place c time hc),
    fun other hother => h.clear (hs.clear other hother)⟩

/-- Storing leaves nothing in the way of storing again. -/
theorem Storable.persist {s : Session} (hs : Storable d loc) (h : d.Ready loc)
    (hn : ∀ s ∈ loc, IsName s) (hroot : s.root = pathOf loc) (m : Machine) (g : Graph) :
    Storable (persist m s d g).1 loc := by
  have hgraph := Store.save_effect h hn m.refusal g
  unfold Session.persist
  rw [hroot]
  rcases hd : Store.save m.refusal d (pathOf loc) g with ⟨d₁, e | u⟩
  · rw [hd] at hgraph
    exact hs.of_saveEffect hgraph
  · rw [hd] at hgraph
    have hledger := Ledger.persist_effect hgraph.ready hn m.refusal s.ledger
    rcases hl : s.ledger.persist m.refusal d₁ (ledgerPath (pathOf loc)) with ⟨d₂, e | u⟩ <;>
      rw [hl] at hledger <;> simp only [hl] <;>
      exact (hs.of_saveEffect hgraph).of_saveEffect hledger

/-- A state folder that holds only files, or is not there yet, is no obstacle. -/
theorem storable_of_files {time : Int} {es : List (Bytes × Item)}
    (hat : d.root.at? loc = some (.folder time es))
    (hstate : ∀ it, es.lookup Store.stateFolder = some it → ∃ time' es', it = .folder time' es' ∧
      ∀ name x, es'.lookup name = some x → ∃ b t, x = .file b t)
    (hshort : barrier? (loc ++ [Store.stateFolder]) = none)
    (hshort' : ∀ name ∈ [Store.graphFile, Store.graphTemporary, Ledger.fileName,
      Store.ledgerTemporary], barrier? (statePlace loc name) = none) :
    d.Ready loc ∧ Storable d loc := by
  have hfolder : d.root.at? (loc ++ [Store.stateFolder]) = es.lookup Store.stateFolder := by
    rw [Item.at?_append, hat, Option.bind_some, Item.at?_cons_folder]
    cases es.lookup Store.stateFolder <;> rfl
  have hfiles : ∀ name x, d.stored loc name = some x → ∃ b t, x = .file b t := by
    intro name x hx
    obtain ⟨t, es', hes', hx'⟩ := folder_of_at?_concat hx
    rw [hfolder] at hes'
    obtain ⟨t', es'', he, hall⟩ := hstate _ hes'
    cases he
    exact hall name x hx'
  refine ⟨⟨⟨time, es, hat⟩, ?_, ?_⟩, hshort, ?_, fun name hname => ⟨hshort' name hname, ?_⟩⟩
  · intro target ht
    rw [hfolder] at ht
    obtain ⟨_, _, he, -⟩ := hstate _ ht
    cases he
  · intro name target ht
    obtain ⟨b, t, he⟩ := hfiles name _ ht
    cases he
  · intro b t ht
    rw [hfolder] at ht
    obtain ⟨_, _, he, -⟩ := hstate _ ht
    cases he
  · intro t es' ht
    obtain ⟨b, t', he⟩ := hfiles name _ ht
    cases he

theorem Storable.save_ok (h : Storable d loc) (hready : d.Ready loc) (hn : ∀ s ∈ loc, IsName s)
    {refusal : Refusal} (hr : ∀ step, refusal (Store.graphPath (pathOf loc)) step = none)
    (g : Graph) : (Store.save refusal d (pathOf loc) g).2 = .ok () := by
  unfold Store.save
  unfold Store.graphPath at hr ⊢
  rw [Store.statePath_pathOf hn (by decide)] at hr ⊢
  exact hready.save_ok hn (by decide) (by decide) (by decide) (Store.temporary_graph hn) h.short
    h.folder (h.clear _ (by simp)) (h.clear _ (by simp)) hr _

/-- Storing succeeds if nothing stands in its way and the device does not refuse. -/
theorem persist_ok {s : Session} {m : Machine} (h : d.Ready loc) (hn : ∀ s ∈ loc, IsName s)
    (hroot : s.root = pathOf loc) (hs : Storable d loc)
    (hm : ∀ path step, m.refusal path step = none) (g : Graph) : (persist m s d g).2 = .ok () := by
  have heffect := Store.save_effect h hn m.refusal g
  have hgraph : (Store.save m.refusal d (pathOf loc) g).2 = .ok () :=
    hs.save_ok h hn (fun _ => hm _ _) g
  unfold persist
  rw [hroot]
  rcases hd : Store.save m.refusal d (pathOf loc) g with ⟨d₁, e | u⟩
  · rw [hd] at hgraph
    cases hgraph
  · rw [hd] at heffect
    have hs₁ := hs.of_saveEffect heffect
    have hledger : (s.ledger.persist m.refusal d₁ (ledgerPath (pathOf loc))).2 = .ok () := by
      unfold Ledger.persist ledgerPath
      rw [Store.statePath_pathOf hn (by decide)]
      exact heffect.ready.save_ok hn (by decide) (by decide) (by decide) (Store.temporary_ledger hn)
        hs₁.short hs₁.folder (hs₁.clear _ (by simp)) (hs₁.clear _ (by simp)) (fun _ => hm _ _) _
    rcases hl : s.ledger.persist m.refusal d₁ (ledgerPath (pathOf loc)) with ⟨d₂, e | u⟩
    · rw [hl] at hledger
      cases hledger
    · simp only [hl]

/-- Storing fails halfway if the device refuses to write the ledger. -/
theorem persist_refused {s : Session} {m : Machine} {e : IoError} (h : d.Ready loc)
    (hn : ∀ s ∈ loc, IsName s) (hroot : s.root = pathOf loc) (hs : Storable d loc)
    (hgraph : ∀ step, m.refusal (Store.graphPath (pathOf loc)) step = none)
    (hledger : m.refusal (ledgerPath (pathOf loc)) .temporary = some e) (g : Graph) :
    ∃ e', (persist m s d g).2 = .error (.io e') := by
  have hsaved := hs.save_ok h hn hgraph g
  unfold persist
  rw [hroot]
  rcases hd : Store.save m.refusal d (pathOf loc) g with ⟨d₁, e₁ | u⟩
  · rw [hd] at hsaved
    cases hsaved
  · obtain ⟨e', he'⟩ := save_refused hledger d₁ (Text.bytes s.ledger.toJson.pretty)
    rcases hl : s.ledger.persist m.refusal d₁ (ledgerPath (pathOf loc)) with ⟨d₂, e₂ | u⟩
    · simp only [hl]
      exact ⟨e₂, rfl⟩
    · unfold Ledger.persist at hl
      rw [hl] at he'
      cases he'

end Session

/-! ### Restoring -/

theorem Store.stored_of_load? {g : Graph} (hn : ∀ s ∈ loc, IsName s)
    (hf : d.LinkFree (statePlace loc Store.graphFile)) (h : Store.load? d (pathOf loc) = some g) :
    ∃ b time, d.stored loc Store.graphFile = some (.file b time) ∧ Store.ofBytes? b = some g := by
  unfold Store.load? Store.graphPath at h
  rw [statePath_pathOf hn (by decide)] at h
  split at h
  · next b hb =>
    have hall := isName_concat (isName_concat hn (show IsName Store.stateFolder by decide))
      (show IsName Store.graphFile by decide)
    obtain ⟨time, hat⟩ := at?_of_read hall hf hb
    exact ⟨b, time, hat, h⟩
  · cases h

/-- What is stored can be read. -/
theorem read_stored {name : Bytes} {b : Bytes} (h : d.Stores loc name b) (hn : ∀ s ∈ loc, IsName s)
    (hname : IsName name) : d.read (Store.statePath (pathOf loc) name) = .ok b := by
  obtain ⟨hshort, time, hfile⟩ := h
  have hall := isName_concat (isName_concat hn (show IsName Store.stateFolder by decide)) hname
  have hitem : d.item (pathOf (statePlace loc name)) = _ :=
    item_pathOf (by simp [statePlace]) hall hfile (Item.notLink_file b time)
  rw [hshort] at hitem
  unfold Disk.read
  rw [Store.statePath_pathOf hn hname, hitem]
  rfl

theorem Store.load?_of_stores {b : Bytes} (h : d.Stores loc Store.graphFile b)
    (hn : ∀ s ∈ loc, IsName s) : Store.load? d (pathOf loc) = Store.ofBytes? b := by
  have hread := read_stored h hn (by decide)
  unfold Store.load? Store.graphPath
  rw [hread]

theorem Ledger.load_of_stores {b : Bytes} (h : d.Stores loc Ledger.fileName b)
    (hn : ∀ s ∈ loc, IsName s) (l : Ledger) :
    l.load d (Session.ledgerPath (pathOf loc)) =
      { l with entries := (entries? b).getD .empty } := by
  have hread := read_stored h hn (by decide)
  unfold Ledger.load Ledger.stored Session.ledgerPath
  rw [hread]

theorem Ledger.stored_of_load {q : Path} {e : LedgerEntry} (hn : ∀ s ∈ loc, IsName s)
    (hf : d.LinkFree (statePlace loc Ledger.fileName))
    (h : (Ledger.empty.load d (Session.ledgerPath (pathOf loc))).get? q = some e) :
    ∃ b time entries, d.stored loc Ledger.fileName = some (.file b time) ∧
      Ledger.entries? b = some entries ∧ entries.get? q.text = some e := by
  unfold Ledger.get? Ledger.load Ledger.stored Session.ledgerPath at h
  rw [Store.statePath_pathOf hn (by decide)] at h
  simp only at h
  split at h
  · next b hb =>
    have hall := isName_concat (isName_concat hn (show IsName Store.stateFolder by decide))
      (show IsName Ledger.fileName by decide)
    obtain ⟨time, hat⟩ := at?_of_read hall hf hb
    cases he : Ledger.entries? b with
    | none =>
      rw [he] at h
      cases h
    | some entries =>
      rw [he] at h
      exact ⟨b, time, entries, hat, he, h⟩
  · cases h

namespace Session

variable {root : Path} {g : Graph}

/-- The ledger that an earlier session has stored. -/
def storedLedger (d : Disk) (root : Path) : Ledger := Ledger.empty.load d (ledgerPath root)

theorem restore_none (h : Store.load? d root = none) :
    restore d root = ((storedLedger d root).clear, .empty) := by
  unfold restore
  rw [h]
  rfl

theorem ledger_restored (h : Store.load? d root = some g) :
    (restore d root).1 = storedLedger d root := by
  unfold restore
  rw [h]
  rfl

/-- The facts of a restored file are those in the graph; a file that only the ledger knows has
none. -/
theorem get?_restored (h : Store.load? d root = some g) (k : String) :
    (restore d root).2.get? k = (g.factsByFile.get? k).or
      (if k ∈ (storedLedger d root).paths.map (fun p => (Path.ofText p).relativeTo root)
        then some (.empty k) else none) := by
  have hknown := SortedMap.find?_map_key (fun p => (Path.ofText p).relativeTo root)
    FileSignals.empty (storedLedger d root).paths.reverse k
  simp only [List.map_reverse, List.mem_reverse] at hknown
  rw [← hknown, ← SortedMap.get?_ofList, ← SortedMap.get?_insertAll_entries]
  unfold restore
  rw [h]
  rfl

theorem keyed_restored : Keyed (restore d root).2 := by
  cases h : Store.load? d root with
  | none =>
    rw [restore_none h]
    intro k f hk
    cases hk
  | some g =>
    intro k f hk
    rw [get?_restored h] at hk
    cases hg : g.factsByFile.get? k with
    | some f' =>
      rw [hg] at hk
      cases hk
      exact g.keyed_factsByFile k f hg
    | none =>
      rw [hg, Option.none_or] at hk
      split at hk
      · cases hk
        exact ⟨rfl, nofun⟩
      · cases hk

end Session

end SignalAtlas
