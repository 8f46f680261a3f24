import Mathlib.Tactic
import SignalAtlas.Proofs.Histories

/-!
# A project that is stored and then changes

Projects at a fixed place whose files tell the time of their last change (`Setting.clocked`), with a
graph and a ledger beside them (`withState`).

`Upkeep` is the history on which the results about histories are shown not to be empty: a session
analyses such a project and stores what it found, then the scripts change, then a second session is
opened on what the first one stored.
-/

namespace SignalAtlas

open Disk

/-! ### Projects at a fixed place -/

/-- A project at that place whose files hold the time of their last change. -/
def Setting.clocked (parse : Path → Except IoError Bytes → Attempt) : Setting :=
  ⟨["p"], by decide, by decide, parse, fun _ time => [time.toUInt8]⟩

theorem settled_holding {parse : Path → Except IoError Bytes → Attempt} {es : List (Bytes × Item)}
    {places : List Location} (h : es.lookup Store.stateFolder = none)
    (hnamed : Discovery.Named (outside es)) (hbelow : Discovery.below true es = places)
    (hcontents : (places.all fun names =>
      match (Item.folder 0 es).at? names with
      | some (.file b t) => b == [(milliseconds t).toUInt8]
      | _ => true) = true) :
    (Setting.clocked parse).Settled (holding es) := by
  subst hbelow
  exact .of_folder (unstored_holding es h).1.1 rfl hnamed hcontents

/-- The entries of a project together with its state, which is written as two values. -/
def withState (es : List (Bytes × Item)) (g l : Json) : List (Bytes × Item) :=
  es ++ [(Store.stateFolder, .folder 0 [(Store.graphFile, .file (Text.bytes g.pretty) 0),
    (Ledger.fileName, .file (Text.bytes l.pretty) 0)])]

section

variable {es : List (Bytes × Item)} {g l : Json}

theorem outside_withState : outside (withState es g l) = outside es := by
  simp [outside, withState]

theorem lookup_withState (h : es.lookup Store.stateFolder = none) :
    (withState es g l).lookup Store.stateFolder =
      some (.folder 0 [(Store.graphFile, .file (Text.bytes g.pretty) 0),
        (Ledger.fileName, .file (Text.bytes l.pretty) 0)]) := by
  simp [withState, List.lookup_append, h]

theorem wellNamed_withState (h : es.lookup Store.stateFolder = none)
    (hw : (Item.folder 0 es).WellNamed) : (Item.folder 0 (withState es g l)).WellNamed := by
  obtain ⟨hnodup, hnames⟩ := Item.wellNamed_folder.1 hw
  have hstate : IsName Store.stateFolder ∧ IsName Store.graphFile ∧ IsName Ledger.fileName ∧
      Store.graphFile ≠ Ledger.fileName := by decide
  obtain ⟨hfolder, hgraph, hledger, hne⟩ := hstate
  have hfiles : ∀ b b' : Bytes, (Item.folder 0 [(Store.graphFile, .file b 0),
      (Ledger.fileName, .file b' 0)]).WellNamed := by
    intro b b'
    refine Item.wellNamed_folder.2 ⟨by simpa using hne, ?_⟩
    refine List.forall_mem_cons.2 ⟨⟨hgraph, Item.wellNamed_file b 0⟩, ?_⟩
    exact List.forall_mem_singleton.2 ⟨hledger, Item.wellNamed_file b' 0⟩
  refine Item.wellNamed_folder.2 ⟨?_, ?_⟩
  · rw [withState, List.map_append, List.nodup_append']
    refine ⟨hnodup, List.nodup_singleton _, List.disjoint_singleton.2 ?_⟩
    exact Item.lookup_eq_none_iff.1 h
  · refine List.forall_mem_append.2 ⟨hnames, List.forall_mem_singleton.2 ⟨hfolder, hfiles _ _⟩⟩

theorem storable_withState (h : es.lookup Store.stateFolder = none) :
    (holding (withState es g l)).Ready ["p"] ∧
      Session.Storable (holding (withState es g l)) ["p"] := by
  refine storable_holding fun it hit => ?_
  rw [lookup_withState h] at hit
  cases hit
  refine ⟨_, _, rfl, fun name x hx => ?_⟩
  simp only [List.lookup_cons, List.lookup_nil] at hx
  split at hx
  · cases hx
    exact ⟨_, _, rfl⟩
  · split at hx
    · cases hx
      exact ⟨_, _, rfl⟩
    · cases hx

theorem stored_withState (h : es.lookup Store.stateFolder = none) (name : Bytes) :
    (holding (withState es g l)).stored ["p"] name =
      [(Store.graphFile, Item.file (Text.bytes g.pretty) 0),
        (Ledger.fileName, .file (Text.bytes l.pretty) 0)].lookup name := by
  show (Item.folder 0 (withState es g l)).at? [Store.stateFolder, name] = _
  rw [Item.at?_cons_folder, lookup_withState h, Option.bind_some, Item.at?_cons_folder]
  cases List.lookup name _ <;> rfl

theorem stores_withState (h : es.lookup Store.stateFolder = none) :
    (holding (withState es g l)).Stores ["p"] Store.graphFile (Text.bytes g.pretty) ∧
      (holding (withState es g l)).Stores ["p"] Ledger.fileName (Text.bytes l.pretty) :=
  ⟨⟨by decide, 0, stored_withState h _⟩, ⟨by decide, 0, stored_withState h _⟩⟩

theorem file_of_stored_withState (h : es.lookup Store.stateFolder = none) {name : Bytes} {b : Bytes}
    {time : Int} (hb : (holding (withState es g l)).stored ["p"] name = some (.file b time)) :
    name = Store.graphFile ∧ b = Text.bytes g.pretty ∨
      name = Ledger.fileName ∧ b = Text.bytes l.pretty := by
  rw [stored_withState h, List.lookup_cons, List.lookup_cons, List.lookup_nil] at hb
  split at hb
  · next hname =>
    cases hb
    exact .inl ⟨eq_of_beq hname, rfl⟩
  · split at hb
    · next hname =>
      cases hb
      exact .inr ⟨eq_of_beq hname, rfl⟩
    · cases hb

theorem sameOutside_withState :
    (holding es).SameOutside (holding (withState es g l)) ["p"] := by
  intro time es' hat
  cases hat
  exact ⟨_, _, rfl, outside_withState⟩

theorem sameScripts_withState (hnamed : Discovery.Named (outside es)) :
    (holding es).SameScripts (holding (withState es g l)) (pathOf ["p"]) := by
  refine sameScripts_of_outside (project_holding hnamed) (project_holding ?_) outside_withState
  rwa [outside_withState]

end

/-! ### A stored project that changes -/

/-- A project that a session has analysed and stored, and whose scripts have changed from `before`
to `after`; `session` is that session when it was opened. -/
structure Upkeep where
  parse : Path → Except IoError Bytes → Attempt
  scan : ScanOptions
  before : List (Bytes × Item)
  after : List (Bytes × Item)
  settled : ∀ es ∈ [before, after], (Setting.clocked parse).Settled (holding es)
  stateless : ∀ es ∈ [before, after], es.lookup Store.stateFolder = none
  session : Session
  opened : Session.open (holding before) (pathOf ["p"]) ⟨scan, true⟩ = .ok session

namespace Upkeep

variable (U : Upkeep)

/-- The provider. -/
def provider : Provider := .reading U.parse

/-- The session after its analysis. -/
def first : Live :=
  Live.analyze ⟨U.session, U.session.ledger.agreeing .empty⟩ .willing U.provider (holding U.before)
    .full

/-- The disk with the changed scripts. -/
def changed : Disk :=
  holding (withState U.after (Graph.ofFiles 7 U.first.session.table.values).toJson
    U.first.session.ledger.toJson)

/-- What happens. -/
def events : List Event :=
  [.open (pathOf ["p"]) ⟨U.scan, true⟩, .analyze 0 .willing U.provider .full, .change U.changed]

theorem dependsOnFile : U.provider.DependsOnFile U.parse := Provider.dependsOnFile_reading U.parse

theorem settled_withState {es : List (Bytes × Item)} (h : es ∈ [U.before, U.after]) (g l : Json) :
    (Setting.clocked U.parse).Settled (holding (withState es g l)) :=
  (U.settled es h).of_sameOutside (project_holding ((U.settled es h).named _ _ rfl))
    sameOutside_withState (storable_withState (U.stateless es h)).1

theorem settled_changed : (Setting.clocked U.parse).Settled U.changed :=
  U.settled_withState (by simp) _ _

theorem sameScripts_changed : (holding U.after).SameScripts U.changed (pathOf ["p"]) :=
  sameScripts_withState ((U.settled U.after (by simp)).named _ _ rfl)

theorem root_session : U.session.root = pathOf ["p"] :=
  Session.root_eq_of_open U.opened (resolveRoot_holding _)

theorem persist_session : U.session.options.persist = true := by
  rw [(Session.root_of_open U.opened).2]

theorem root_first : U.first.session.root = pathOf ["p"] :=
  (Session.root_analyze ..).trans U.root_session

theorem options_first : U.first.session.options = ⟨U.scan, true⟩ :=
  (Session.options_analyze ..).trans (Session.root_of_open U.opened).2

/-- An analysis of the changed project has a result. -/
theorem exists_analysis {s : Session} (hroot : s.root = pathOf ["p"]) (mode : ScanMode) :
    ∃ a, (s.analyze .willing U.provider U.changed mode).result = .ok a := by
  have hstorable : Session.Storable U.changed ["p"] :=
    (storable_withState (U.stateless U.after (by simp))).2
  exact Session.exists_analysis U.settled_changed.tidy hroot Machine.fair_willing
    U.dependsOnFile.readsOnly (resolveRoot_holding _) rfl (fun _ => ⟨hstorable, fun _ _ => rfl⟩)
    mode

/-- The first analysis stores graph and ledger. -/
theorem first_stores :
    let report := U.session.analyze .willing U.provider (holding U.before) .full
    (∃ a, report.result = .ok a) ∧
      Session.StoresGraph report.disk ["p"] (.ofFiles 7 U.first.session.table.values) ∧
      Session.StoresLedger report.disk ["p"] U.first.session.ledger := by
  intro report
  have hs : (holding U.before).Tidy ["p"] := (U.settled U.before (by simp)).tidy
  obtain ⟨⟨-, hstorable⟩, -⟩ := unstored_holding U.before (U.stateless _ (by simp))
  obtain ⟨a, ha⟩ := Session.exists_analysis hs U.root_session Machine.fair_willing
    U.dependsOnFile.readsOnly (resolveRoot_holding _) rfl (fun _ => ⟨hstorable, fun _ _ => rfl⟩)
    .full
  cases (Session.analyze_stores hs U.root_session Machine.fair_willing U.dependsOnFile.readsOnly
    .full).2 with
  | nothing unstored =>
    unfold Session.graphStored at unstored
    rw [ha, U.persist_session] at unstored
    cases unstored
  | graphOnly e failure =>
    rw [ha] at failure
    cases failure
  | both _ _ _ graph ledger => exact ⟨⟨a, ha⟩, graph, ledger⟩

theorem run_events :
    (World.start (holding U.before)).run U.events = ⟨U.changed, [U.first], U.first.known⟩ := by
  obtain ⟨⟨a, ha⟩, -⟩ := U.first_stores
  have hstored : U.session.graphStored
      (U.session.analyze .willing U.provider (holding U.before) .full).result = true := by
    unfold Session.graphStored
    rw [ha, U.persist_session]
    rfl
  unfold events
  rw [World.run_start_open U.opened]
  show World.mk U.changed [U.first] (if U.session.graphStored
    (U.session.analyze .willing U.provider (holding U.before) .full).result then _ else _) = _
  rw [hstored, if_pos rfl]
  rfl

/-- The change leaves the stored files alone. -/
theorem stored_of_changed {name b : Bytes} {time : Int}
    (hb : U.changed.stored ["p"] name = some (.file b time)) :
    ∃ time',
      (U.session.analyze .willing U.provider (holding U.before) .full).disk.stored ["p"] name =
        some (.file b time') := by
  obtain ⟨-, ⟨-, t, hgraph⟩, -, t', hledger⟩ := U.first_stores
  rcases file_of_stored_withState (U.stateless _ (by simp)) hb with ⟨rfl, rfl⟩ | ⟨rfl, rfl⟩
  · exact ⟨t, hgraph⟩
  · exact ⟨t', hledger⟩

end Upkeep

end SignalAtlas
