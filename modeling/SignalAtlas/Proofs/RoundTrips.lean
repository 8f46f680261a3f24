import Mathlib.Tactic
import SignalAtlas.Proofs.Codecs
import SignalAtlas.Proofs.Overwriting
import SignalAtlas.Proofs.Sessions

/-!
# What was stored is read back

A graph and a ledger are stored as the text of their JSON form, and a fact is passed on as one.
Reading gives back what was written, a graph as long as its counts fit into words (`SizedGraph`):

* `Fact.ofJson?_reread`: a fact is read by the reader that its tag stands for;
* `Store.load?_save` and `Ledger.load_persist`: a graph and a ledger after a save that succeeds;
* `graph_saved_through_link_is_lost`: why the last two make an exception for files out of reach. A
  link that stands for the temporary file is moved to the place of the file, and may then lead to
  itself.
-/

namespace SignalAtlas

open Disk

/-! ### Facts -/

namespace Json

/-- A member in front that is not asked for changes nothing. -/
theorem bind_reread_tagged {β : Type} {names : List String} {value? : Json → Option β}
    (hvalue : ∀ j j', fields? names j = fields? names j' → value? j = value? j')
    {name : String} {ms : List (String × Json)} (hname : name ∉ names)
    (hn : (name :: ms.map Prod.fst).Nodup) (tag : String) (depth : Nat) :
    (reread (depth + 1) (.object ((name, .string tag) :: ms))).bind value? =
      (reread (depth + 1) (.object ms)).bind value? := by
  rw [reread_object, reread_object, List.mapM_cons, reread_string]
  cases hm : ms.mapM fun e => (reread depth e.2).map (e.1, ·) with
  | none => rfl
  | some m =>
    have hkeys : m.map Prod.fst = ms.map Prod.fst := keys_of_mapM _ hm
    apply hvalue
    rw [fields?_sorted (by simpa [hkeys] using hn),
      fields?_sorted (hkeys ▸ (List.nodup_cons.1 hn).2)]
    congr 1
    refine List.map_congr_left fun other hother => ?_
    rw [lookup_cons_if, if_neg]
    rintro rfl
    exact hname hother

end Json

theorem Definition.ofJson?_congr (j j' : Json)
    (h : j.fields? ["name", "params", "paramTypes", "filePath", "line", "source"] =
      j'.fields? ["name", "params", "paramTypes", "filePath", "line", "source"]) :
    ofJson? j = ofJson? j' := by
  rw [ofJson?, ofJson?, h]

theorem Emission.ofJson?_congr (j j' : Json)
    (h : j.fields? ["signalName", "filePath", "line", "emitter", "args"] =
      j'.fields? ["signalName", "filePath", "line", "emitter", "args"]) :
    ofJson? j = ofJson? j' := by
  rw [ofJson?, ofJson?, h]

theorem Connection.ofJson?_congr (j j' : Json)
    (h : j.fields? ["signalName", "filePath", "line", "target", "handler", "flags", "isLambda"] =
      j'.fields? ["signalName", "filePath", "line", "target", "handler", "flags", "isLambda"]) :
    ofJson? j = ofJson? j' := by
  rw [ofJson?, ofJson?, h]

namespace Fact

/-- What is read under a tag is read by the reader that the tag stands for. -/
theorem bind_reread_kind {β : Type} {names : List String} {value? : Json → Option β}
    {make : β → Fact} {tag : String} (htag : ∀ j, j.member? "kind" = some (.string tag) →
      ofJson? j = (value? j).map make)
    (hvalue : ∀ j j', Json.fields? names j = Json.fields? names j' → value? j = value? j')
    {ms : List (String × Json)} (hname : "kind" ∉ names) (hn : ("kind" :: ms.map Prod.fst).Nodup)
    (depth : Nat) :
    (Json.reread (depth + 1) (.object (("kind", .string tag) :: ms))).bind ofJson? =
      ((Json.reread (depth + 1) (.object ms)).bind value?).map make := by
  rw [← Json.bind_reread_tagged hvalue hname hn tag]
  cases hj : Json.reread (depth + 1) (.object (("kind", .string tag) :: ms)) with
  | none => rfl
  | some j =>
    have hmember := Json.member?_of_reread (by simpa using hn) hj "kind"
    rw [lookup_cons_if, if_pos rfl, Option.bind_some, Json.reread_string] at hmember
    exact htag j hmember

theorem ofJson?_reread (depth : Nat) (f : Fact) :
    (Json.reread (depth + 2) f.toJson).bind ofJson? = some f := by
  cases f with
  | definition d =>
    have htag : ∀ j, Json.member? "kind" j = some (.string "definition") →
        ofJson? j = (Definition.ofJson? j).map .definition := fun j hj => by simp [ofJson?, hj]
    have hn : ("kind" :: d.toMembers.map Prod.fst).Nodup := by
      unfold Definition.toMembers
      split <;> simp
    have hread := Definition.ofJson?_reread depth d
    unfold Definition.toJson at hread
    rw [toJson, bind_reread_kind htag Definition.ofJson?_congr (by decide) hn, hread,
      Option.map_some]
  | emission e =>
    have htag : ∀ j, Json.member? "kind" j = some (.string "emission") →
        ofJson? j = (Emission.ofJson? j).map .emission := fun j hj => by simp [ofJson?, hj]
    have hn : ("kind" :: e.toMembers.map Prod.fst).Nodup := by simp [Emission.toMembers]
    have hread := Emission.ofJson?_reread depth e
    unfold Emission.toJson at hread
    rw [toJson, bind_reread_kind htag Emission.ofJson?_congr (by decide) hn, hread,
      Option.map_some]
  | connection c =>
    have htag : ∀ j, Json.member? "kind" j = some (.string "connection") →
        ofJson? j = (Connection.ofJson? j).map .connection := fun j hj => by simp [ofJson?, hj]
    have hn : ("kind" :: c.toMembers.map Prod.fst).Nodup := by
      unfold Connection.toMembers
      split <;> simp
    have hread := Connection.ofJson?_reread depth c
    unfold Connection.toJson at hread
    rw [toJson, bind_reread_kind htag Connection.ofJson?_congr (by decide) hn, hread,
      Option.map_some]

theorem whole_toJson (f : Fact) : Raw.whole f.toJson = true := by
  cases f with
  | definition d => exact d.whole_toJson
  | emission e => exact e.whole_toJson
  | connection c => exact c.whole_toJson

/-- A fact is read back from its text. -/
theorem ofJson?_parse? (f : Fact) :
    (Json.parse? (Text.bytes f.toJson.pretty)).bind ofJson? = some f := by
  rw [Json.parse?_pretty f.whole_toJson, show Raw.maxDepth = 125 + 2 from rfl, ofJson?_reread]

/-- A fact is read back from its value. -/
theorem ofJson?_toJson (f : Fact) : ofJson? f.toJson = some f := by
  have hline : ∀ w, Json.word64? (.word64 w) = some w := fun w => by
    simp [Json.word64?, Json.natBelow?, Json.word64, Json.nat, w.toNat_lt]
  cases f with
  | definition d =>
    obtain ⟨name, params, paramTypes, filePath, line, source⟩ := d
    cases paramTypes <;>
      simp [toJson, ofJson?, Json.member?, Definition.ofJson?, Definition.toMembers, Json.fields?,
        lookup_cons_if, Json.string?, hline, Json.list?_strings, Json.optional?_ofMap_string]
    rfl
  | emission e =>
    simp [toJson, ofJson?, Json.member?, Emission.ofJson?, Emission.toMembers, Json.fields?,
      lookup_cons_if, Json.string?, hline, Json.list?_strings]
  | connection c =>
    obtain ⟨signalName, filePath, line, target, handler, flags, isLambda⟩ := c
    cases target <;>
      simp [toJson, ofJson?, Json.member?, Connection.ofJson?, Connection.toMembers, Json.fields?,
        lookup_cons_if, Json.string?, Json.bool?, Json.optional?, hline, Json.list?_strings]

end Fact

/-! ### Stored graphs and ledgers -/

/-- A graph that was stored is loaded again. -/
theorem Store.load?_save {refusal : Refusal} {d : Disk} {root : Path} {g : SizedGraph}
    (hs : g.metadata.schemaVersion = Graph.schema)
    (h : (save refusal d root g.toGraph).2 = .ok ()) :
    load? (save refusal d root g.toGraph).1 root = some g.toGraph ∨
      OutOfReach d (save refusal d root g.toGraph).1 (graphPath root) := by
  refine (read_save h).imp_left fun hread => ?_
  change (save refusal d root g.toGraph).1.read (graphPath root) = _ at hread
  unfold load?
  rw [hread]
  exact (ofBytes?_toJson hs).trans (if_pos g.sized)

/-- The entries of a ledger that was stored are loaded again. -/
theorem Ledger.load_persist {refusal : Refusal} {d : Disk} {p : Path} {l : Ledger}
    (h : (l.persist refusal d p).2 = .ok ()) (l' : Ledger) :
    l'.load (l.persist refusal d p).1 p = { l' with entries := l.entries } ∨
      OutOfReach d (l.persist refusal d p).1 p := by
  refine (read_save h).imp_left fun hread => ?_
  change (l.persist refusal d p).1.read p = _ at hread
  unfold load stored
  simp only [hread, entries?_toJson, Option.getD_some]

/-- What was stored is read back: a graph of the present version, the entries of a ledger, and a
fact from its value and from its text. Only a file that came out of reach is not. -/
theorem stored_values_are_read_back :
    (∀ (refusal : Refusal) (d : Disk) (root : Path) (g : SizedGraph),
      g.metadata.schemaVersion = Graph.schema → (Store.save refusal d root g.toGraph).2 = .ok () →
      Store.load? (Store.save refusal d root g.toGraph).1 root = some g.toGraph ∨
        OutOfReach d (Store.save refusal d root g.toGraph).1 (Store.graphPath root)) ∧
    (∀ (refusal : Refusal) (d : Disk) (p : Path) (l l' : Ledger),
      (l.persist refusal d p).2 = .ok () →
      l'.load (l.persist refusal d p).1 p = { l' with entries := l.entries } ∨
        OutOfReach d (l.persist refusal d p).1 p) ∧
    ∀ f : Fact, Fact.ofJson? f.toJson = some f ∧
      (Json.parse? (Text.bytes f.toJson.pretty)).bind Fact.ofJson? = some f :=
  ⟨fun _ _ _ _ hs h => Store.load?_save hs h, fun _ _ _ _ l' h => Ledger.load_persist h l',
    fun f => ⟨f.ofJson?_toJson, f.ofJson?_parse?⟩⟩

/-- What stands in the state folder is within reach. -/
theorem not_outOfReach_of_stores {d d' : Disk} {loc : Location} {name b : Bytes}
    (h : d'.Stores loc name b) (hn : ∀ s ∈ loc, IsName s) (hname : IsName name) :
    ¬OutOfReach d d' (Store.statePath (pathOf loc) name) := by
  rintro ⟨-, hmissing⟩
  have hread := read_stored h hn hname
  unfold hasItem at hmissing
  unfold Disk.read at hread
  cases hit : d'.item (Store.statePath (pathOf loc) name) with
  | ok it =>
    rw [hit] at hmissing
    cases hmissing
  | error e =>
    rw [hit] at hread
    cases hread

/-- A graph with an empty bucket and misfiled facts, and a ledger with an entry for another path. -/
theorem stored_values_are_read_back_on_new_disk :
    let d := holding []
    let root := pathOf ["p"]
    let willing : Refusal := fun _ _ => none
    let definition : Definition :=
      ⟨"b", ["x"], some (.ofList [("x", "int")]), "p.gd", 18446744073709551615, "signal b(x: int)"⟩
    let connection : Connection := ⟨"c", "p.gd", 0, none, "h", [], true⟩
    let g : SizedGraph :=
      { definitions := .ofList [("", []), ("a", [definition])]
        emissions := .empty
        connections := .ofList [("a", [connection])]
        metadata := ⟨Graph.schema, 18446744073709551615, 0, 9, 0, 2⟩
        sized := rfl }
    let l : Ledger := ⟨7, .ofList [("a", ⟨"b", 5, 4294967295⟩)]⟩
    let ledgerPath := Session.ledgerPath root
    (g.metadata.schemaVersion = Graph.schema ∧ (Store.save willing d root g.toGraph).2 = .ok () ∧
      Store.load? (Store.save willing d root g.toGraph).1 root = some g.toGraph) ∧
    ((l.persist willing d ledgerPath).2 = .ok () ∧
      Ledger.empty.load (l.persist willing d ledgerPath).1 ledgerPath =
        { Ledger.empty with entries := l.entries }) ∧
    Fact.ofJson? (Fact.toJson (.connection connection)) = some (.connection connection) := by
  intro d root willing definition connection g l ledgerPath
  obtain ⟨⟨hready, hstorable⟩, -⟩ := unstored_holding [] rfl
  have hsave : (Store.save willing d root g.toGraph).2 = .ok () :=
    hstorable.save_ok hready (by decide) (fun _ => rfl) g.toGraph
  have hpersist : (l.persist willing d ledgerPath).2 = .ok () := by
    show (Disk.save willing d (Store.statePath (pathOf ["p"]) Ledger.fileName) _).2 = .ok ()
    rw [Store.statePath_pathOf (by decide) (by decide)]
    exact hready.save_ok (by decide) (by decide) (by decide) (by decide)
      (Store.temporary_ledger (by decide)) hstorable.short hstorable.folder
      (hstorable.clear _ (by simp)) (hstorable.clear _ (by simp)) (fun _ => rfl) _
  have hgraph := (Store.save_effect hready (by decide) willing g.toGraph).saved hsave
  have hledger := (Ledger.persist_effect hready (by decide) willing l).saved hpersist
  exact ⟨⟨rfl, hsave, (stored_values_are_read_back.1 willing d root g rfl hsave).resolve_right
      (not_outOfReach_of_stores hgraph (by decide) (by decide))⟩,
    ⟨hpersist, (stored_values_are_read_back.2.1 willing d ledgerPath l .empty
      hpersist).resolve_right (not_outOfReach_of_stores hledger (by decide) (by decide))⟩,
    (stored_values_are_read_back.2.2 (.connection connection)).1⟩

/-! ### A link in the place of the temporary file -/

/-- A disk with a project that has nothing but a state folder. -/
def Disk.keeping (es : List (Bytes × Item)) : Disk :=
  ⟨.folder 0 [(Text.bytes "p", .folder 0 [(Store.stateFolder, .folder 0 es)])], [], 0⟩

/-- The path of the graph in such a project. -/
def Store.keptGraph : Path := Store.graphPath (pathOf ["p"])

section Keeping

variable (es : List (Bytes × Item)) {aim : Aim} {s : Bytes}

theorem steps_keptGraph :
    steps Store.keptGraph = [Text.bytes "p", Store.stateFolder] ++ [Store.graphFile] := by
  decide +kernel

theorem steps_keptTemporary :
    steps (temporary Store.keptGraph) =
      [Text.bytes "p", Store.stateFolder] ++ [Store.graphTemporary] := by
  decide +kernel

theorem names_of_isName {rest : List Bytes} (hs : IsName s) (hshort : s.length ≤ maxName)
    (hrest : aim = .file → rest = [] ∨ ∃ r ∈ rest, r ≠ []) : Names aim s rest :=
  ⟨hs.1, hs.2.1, hs.2.2.1, hshort, hrest⟩

theorem walks_keeping {k : Nat} {l : Location} {x : Option Item} (hs : s ≠ [])
    (w : Walks (keeping es).root aim k [Text.bytes "p", Store.stateFolder] [s] l x) :
    Walks (keeping es).root aim k [] ([Text.bytes "p", Store.stateFolder] ++ [s]) l x := by
  have hp : Names aim "p" [Store.stateFolder, s] :=
    names_of_isName (by decide) (by decide) fun _ => .inr ⟨s, by simp, hs⟩
  have hstate : Names aim Store.stateFolder [s] :=
    names_of_isName (by decide) (by decide) fun _ => .inr ⟨s, by simp, hs⟩
  exact .enter hp rfl (Item.notLink_folder _ _) (.enter hstate rfl (Item.notLink_folder _ _) w)

theorem beside_keeping : Beside (keeping es) Store.keptGraph [Text.bytes "p", Store.stateFolder]
    [Text.bytes "p", Store.stateFolder] Store.graphFile Store.graphTemporary := by
  refine ⟨by decide +kernel, by decide +kernel, by simp [startOf, keeping], steps_keptGraph,
    steps_keptTemporary, ?_, ?_, by decide, ?_⟩
  · exact names_of_isName (by decide) (by decide) fun ha => by cases ha
  · exact names_of_isName (by decide) (by decide) fun ha => by cases ha
  · have hp : Names .item "p" [Store.stateFolder] :=
      names_of_isName (by decide) (by decide) fun ha => by cases ha
    have hstate : Names .item Store.stateFolder [] :=
      names_of_isName (by decide) (by decide) fun ha => by cases ha
    exact ⟨_, _, .enter hp rfl (Item.notLink_folder _ _)
      (.enter hstate rfl (Item.notLink_folder _ _) (.done rfl))⟩

theorem createFolders_of_folder {d : Disk} {loc : Location} {name : Bytes} {time : Int}
    {es : List (Bytes × Item)} (hn : ∀ s ∈ loc, IsName s) (hname : IsName name)
    (h : d.root.at? (loc ++ [name]) = some (.folder time es))
    (hshort : barrier? (loc ++ [name]) = none) :
    d.createFolders (pathOf (loc ++ [name])) = (d, .ok ()) := by
  obtain ⟨time', es', hup, hlook⟩ := folder_of_at?_concat h
  have hres : ∀ aim, d.resolve (pathOf (loc ++ [name])) aim = _ := fun aim =>
    resolve_entry hn hname hup (by simp [hlook])
  rw [hshort, hlook] at hres
  have hbytes : ((pathOf (loc ++ [name])).bytes == []) = false := by
    simp [pathOf]
  have hfolder : d.hasFolder (pathOf (loc ++ [name])) = true := by
    unfold hasFolder item find
    rw [hres]
    rfl
  unfold createFolders createChain createFolder create
  rw [hbytes, entry_pathOf (by simp) (isName_concat hn hname), hres]
  simp [hfolder]

theorem createFolders_keeping :
    (keeping es).createFolders (pathOf [Text.bytes "p", Store.stateFolder]) =
      (keeping es, .ok ()) := by
  show (keeping es).createFolders (pathOf ([Text.bytes "p"] ++ [Store.stateFolder])) = _
  exact createFolders_of_folder (by decide) (by decide) rfl (by decide)

/-- A link to itself leads nowhere. -/
theorem not_walks_keeping (k : Nat) {l : Location} {x : Item} :
    ¬Walks (keeping [(Store.graphFile, .link Store.keptGraph)]).root .item k []
      ([Text.bytes "p", Store.stateFolder] ++ [Store.graphFile]) l (some x) := by
  -- whoever follows the link comes back to it with one link less to go
  induction k using Nat.strong_induction_on with
  | _ k ih =>
    intro w
    rcases w.of_name (by decide) (by decide) (by decide) with ⟨_, _, -, hat, -⟩ | ⟨_, -, -, w⟩
    · cases hat
    · rcases w.of_name (by decide) (by decide) (by decide) with ⟨_, _, -, hat, -⟩ | ⟨_, -, -, w⟩
      · cases hat
      · rcases w.of_name (by decide) (by decide) (by decide) with
          ⟨k', target, rfl, hat, w⟩ | ⟨_, hit, hat, -⟩
        · cases hat
          rw [steps_keptGraph, List.append_nil] at w
          exact ih k' (by omega) w
        · cases hat
          exact hit _ rfl

theorem load?_keeping :
    Store.load? (keeping [(Store.graphFile, .link Store.keptGraph)]) (pathOf ["p"]) = none := by
  have hread : ∃ e, (keeping [(Store.graphFile, .link Store.keptGraph)]).read
      (Store.graphPath (pathOf ["p"])) = .error e := by
    unfold Disk.read
    cases hit : (keeping [(Store.graphFile, .link Store.keptGraph)]).item
        (Store.graphPath (pathOf ["p"])) with
    | error e => exact ⟨e, rfl⟩
    | ok it =>
      obtain ⟨l, hres⟩ := item_eq_ok_iff.1 hit
      obtain ⟨-, -, w⟩ := resolve_eq_ok_iff.1 hres
      have hsteps := steps_keptGraph
      unfold Store.keptGraph at hsteps
      rw [hsteps] at w
      exact absurd w (not_walks_keeping maxLinks)
  obtain ⟨e, he⟩ := hread
  unfold Store.load?
  rw [he]

/-- The link to itself is what is saved. -/
theorem save_keeping (b : Bytes) :
    (keeping [(Store.graphTemporary, .link Store.keptGraph)]).save (fun _ _ => none)
        Store.keptGraph b = (keeping [(Store.graphFile, .link Store.keptGraph)], .ok ()) := by
  have hres : (keeping [(Store.graphTemporary, .link Store.keptGraph)]).resolve
      (temporary Store.keptGraph) .file =
        .ok ([Text.bytes "p", Store.stateFolder, Store.graphFile], none) := by
    have hname : ∀ s ∈ [Store.graphFile, Store.graphTemporary], Names .file s [] := by
      intro s hs
      refine names_of_isName ?_ ?_ fun _ => .inl rfl
      · revert s; decide
      · revert s; decide
    refine resolve_eq_ok_iff.2 ⟨by decide +kernel, by decide +kernel, ?_⟩
    rw [steps_keptTemporary]
    refine walks_keeping _ (by decide)
      (.jump (k := 39) (hname _ (by simp)) (fun _ => by simp) rfl ?_)
    rw [steps_keptGraph, List.append_nil]
    exact walks_keeping _ (by decide) (.absent (hname _ (by simp)) ⟨_, _, rfl⟩ rfl)
  have hwrite : (keeping [(Store.graphTemporary, .link Store.keptGraph)]).write
      (temporary Store.keptGraph) b = .ok (keeping [(Store.graphTemporary, .link Store.keptGraph),
        (Store.graphFile, .file b 0)]) := by
    unfold write writeAt
    rw [hres]
    rfl
  have hrename : (keeping [(Store.graphTemporary, .link Store.keptGraph),
      (Store.graphFile, .file b 0)]).rename (temporary Store.keptGraph) Store.keptGraph =
      .ok (keeping [(Store.graphFile, .link Store.keptGraph)]) := by
    have hbeside := beside_keeping [(Store.graphTemporary, .link Store.keptGraph),
      (Store.graphFile, .file b 0)]
    have hdots : endsInDots Store.keptGraph = false := by decide +kernel
    have hslash : endsInSlash Store.keptGraph = false := by decide +kernel
    have hsource : (keeping [(Store.graphTemporary, .link Store.keptGraph),
        (Store.graphFile, .file b 0)]).root.at? ([Text.bytes "p", Store.stateFolder] ++
          [Store.graphTemporary]) = some (.link Store.keptGraph) := rfl
    have htarget : (keeping [(Store.graphTemporary, .link Store.keptGraph),
        (Store.graphFile, .file b 0)]).root.at? ([Text.bytes "p", Store.stateFolder] ++
          [Store.graphFile]) = some (.file b 0) := rfl
    have hne : [Text.bytes "p", Store.stateFolder] ++ [Store.graphTemporary] ≠
      [Text.bytes "p", Store.stateFolder] ++ [Store.graphFile] := by decide
    unfold rename find
    rw [hbeside.resolve_temporary, hdots, if_neg (by simp), entry_eq_resolve hslash,
      hbeside.resolve_entry, hslash, hsource, htarget]
    simp only [existing, Bool.false_and, Bool.false_eq_true, if_false, Option.any_some,
      Item.isFolder, if_neg hne]
    rw [Item.drop_concat, Item.put_concat]
    have hother : Store.graphFile ≠ Store.graphTemporary := by decide
    simp [keeping, Item.change, Item.withEntry, Item.withoutEntry, Item.setEntry, nowNs, hother]
  have hparent : Store.keptGraph.parent? = some (pathOf [Text.bytes "p", Store.stateFolder]) := by
    decide +kernel
  unfold save
  simp only [hparent, createFolders_keeping, attempt, hwrite, hrename]

end Keeping

/-- A graph that was saved while a link to its file stood for the temporary file is lost. -/
theorem graph_saved_through_link_is_lost :
    let d := keeping [(Store.graphTemporary, .link (Store.graphPath (pathOf ["p"])))]
    let willing : Refusal := fun _ _ => none
    let g : SizedGraph :=
      { definitions := .ofList [("a", [⟨"a", [], none, "a.gd", 1, "signal a"⟩])]
        emissions := .empty
        connections := .empty
        metadata := ⟨Graph.schema, 0, 1, 1, 0, 0⟩
        sized := rfl }
    g.metadata.schemaVersion = Graph.schema ∧
      (Store.save willing d (pathOf ["p"]) g.toGraph).2 = .ok () ∧
      Store.load? (Store.save willing d (pathOf ["p"]) g.toGraph).1 (pathOf ["p"]) = none := by
  intro d willing g
  have hsave : Store.save willing d (pathOf ["p"]) g.toGraph =
      (keeping [(Store.graphFile, .link Store.keptGraph)], .ok ()) := save_keeping _
  refine ⟨rfl, ?_, ?_⟩
  · rw [hsave]
  · rw [hsave]
    exact load?_keeping

end SignalAtlas
