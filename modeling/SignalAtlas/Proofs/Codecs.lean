import Mathlib.Tactic
import SignalAtlas.Project.Ledger
import SignalAtlas.Project.Store
import SignalAtlas.Proofs.Bindings
import SignalAtlas.Proofs.Texts

/-!
# Stored graphs and ledgers

What is read from the text of a stored ledger is exactly what was stored (`Ledger.entries?_toJson`):
any texts, optional fields and machine words come back as they were. The same holds for a stored
graph (`Store.ofBytes?_toJson`), whose counts are numbers of list items and have to be machine words
to be read. Those of a graph in memory are, which is what a `SizedGraph` carries.
-/

namespace SignalAtlas

/-- Reading lists item by item, twice, is reading each item twice. -/
theorem mapM_bind_mapM {α β γ : Type} (f : α → Option β) (g : β → Option γ) (l : List α) :
    ((l.mapM f).bind fun m => m.mapM g) = l.mapM fun a => (f a).bind g := by
  induction l with
  | nil => rfl
  | cons a l ih =>
    simp only [List.mapM_cons, Option.bind_eq_bind, Option.pure_def]
    rw [← ih]
    cases f a with
    | none => rfl
    | some b =>
      simp only [Option.bind_some]
      cases l.mapM f with
      | none => cases g b <;> rfl
      | some m => simp [List.mapM_cons]

theorem exists_of_mapM {α β : Type} {f : α → Option β} {l : List α} {m : List β} {a : α}
    (h : l.mapM f = some m) (ha : a ∈ l) : ∃ b, f a = some b := by
  induction l generalizing m with
  | nil => cases ha
  | cons x l ih =>
    simp only [List.mapM_cons, Option.bind_eq_bind, Option.pure_def, Option.bind_eq_some_iff,
      Option.some.injEq] at h
    obtain ⟨b, hb, m', hm', rfl⟩ := h
    rcases List.mem_cons.1 ha with rfl | ha
    · exact ⟨b, hb⟩
    · exact ih hm' ha

/-- Reading each item of a list back gives the list. -/
theorem mapM_eq_some {α β : Type} {f : α → Option β} {g : α → β} {l : List α}
    (h : ∀ a ∈ l, f a = some (g a)) : l.mapM f = some (l.map g) := by
  induction l with
  | nil => rfl
  | cons a l ih =>
    rw [List.mapM_cons, h a (by simp), ih fun b hb => h b (List.mem_cons_of_mem _ hb)]
    rfl

namespace SortedMap

/-- Sorting bindings of distinct names does not change what is looked up. -/
theorem lookup_ofList {β : Type} {l : List (String × β)} (hn : (l.map Prod.fst).Nodup)
    (k : String) : (ofList l).entries.lookup k = l.lookup k := by
  rw [lookup_eq_find?, lookup_eq_find?, ← find?_reverse hn, ← get?_ofList]
  rfl

end SortedMap

namespace Json

/-- The value that is read from the text of a value, with a bound for its depth. -/
def reread (depth : Nat) (j : Json) : Option Json := (Raw.ofJson j).toJsonWithin? depth

theorem reread_string (depth : Nat) (s : String) : reread depth (.string s) = some (.string s) := by
  unfold reread
  rw [Raw.ofJson, Raw.toJsonWithin?, Raw.pieceText?_pieces]
  rfl

theorem reread_bool (depth : Nat) (b : Bool) : reread depth (.bool b) = some (.bool b) := by
  unfold reread
  rw [Raw.ofJson, Raw.toJsonWithin?]

/-- A count of at most 64 bits is read back, a larger one is not. -/
theorem reread_nat {bound : Nat} (hb : bound ≤ UInt64.size) (depth n : Nat) :
    (reread depth (.nat n)).bind (natBelow? bound) = if n < bound then some n else none := by
  have hneg : decide ((n : Int) < 0) = false := by simp
  unfold reread nat
  rw [Raw.ofJson, Raw.toJsonWithin?, Numeral.toJson?]
  simp only [Int.natAbs_natCast, Raw.ofDigits_decimal, hneg]
  by_cases hn : n < UInt64.size
  · simp [hn, natBelow?]
  · have hnb : ¬n < bound := fun h => hn (lt_of_lt_of_le h hb)
    rw [if_neg (by simp [hn]), if_neg (by simp), if_neg hnb]
    unfold Numeral.toJson?.real
    cases Numeral.magnitude? _ <;> rfl

theorem itemsWithin?_ofItems (depth : Nat) (l : List Json) :
    Raw.itemsWithin? depth (Raw.ofItems l) = l.mapM (reread depth) := by
  induction l with
  | nil => rfl
  | cons v l ih =>
    have hv : (Raw.ofJson v).toJsonWithin? depth = reread depth v := rfl
    rw [Raw.ofItems, Raw.itemsWithin?, ih, hv, List.mapM_cons]
    cases reread depth v with
    | none => rfl
    | some j => cases hl : l.mapM (reread depth) <;> simp

theorem membersWithin?_ofMembers (depth : Nat) (l : List (String × Json)) :
    Raw.membersWithin? depth (Raw.ofMembers l) =
      l.mapM fun m => (reread depth m.2).map (m.1, ·) := by
  induction l with
  | nil => rfl
  | cons m l ih =>
    obtain ⟨name, v⟩ := m
    have hv : (Raw.ofJson v).toJsonWithin? depth = reread depth v := rfl
    rw [Raw.ofMembers, Raw.membersWithin?, ih, Raw.pieceText?_pieces, hv, List.mapM_cons]
    cases reread depth v with
    | none => rfl
    | some j =>
      cases l.mapM fun m : String × Json => (reread depth m.2).map (m.1, ·) <;> simp

theorem reread_array (depth : Nat) (l : List Json) :
    reread (depth + 1) (.array l) = (l.mapM (reread depth)).map .array := by
  rw [← itemsWithin?_ofItems]
  rfl

theorem reread_object (depth : Nat) (l : List (String × Json)) :
    reread (depth + 1) (.object l) =
      (l.mapM fun m => (reread depth m.2).map (m.1, ·)).map fun m =>
        .object (SortedMap.ofList m).entries := by
  rw [← membersWithin?_ofMembers]
  rfl

theorem reread_strings (depth : Nat) (l : List String) :
    reread (depth + 1) (.strings l) = some (.strings l) := by
  have h : (l.map Json.string).mapM (reread depth) = some ((l.map .string).map id) := by
    refine mapM_eq_some fun j hj => ?_
    obtain ⟨s, -, rfl⟩ := List.mem_map.1 hj
    exact reread_string depth s
  rw [strings, reread_array, h, List.map_id, Option.map_some]

/-! ### Lists, maps and records -/

section Reading

variable {β : Type} {toJson : β → Json} {ofJson? : Json → Option β}

theorem list?_reread (depth : Nat) (l : List β)
    (h : ∀ a ∈ l, (reread depth (toJson a)).bind ofJson? = some a) :
    (reread (depth + 1) (.array (l.map toJson))).bind (list? ofJson?) = some l := by
  rw [reread_array, Option.bind_map]
  show ((List.map toJson l).mapM (reread depth)).bind (fun m => m.mapM ofJson?) = _
  rw [mapM_bind_mapM, List.mapM_map]
  exact (mapM_eq_some h).trans (congrArg some l.map_id)

theorem keys_of_mapM {γ δ : Type} (f : γ → Option δ) {l : List (String × γ)}
    {m : List (String × δ)} (h : (l.mapM fun e => (f e.2).map (e.1, ·)) = some m) :
    m.map Prod.fst = l.map Prod.fst := by
  induction l generalizing m with
  | nil => cases h; rfl
  | cons e l ih =>
    rw [List.mapM_cons] at h
    cases he : f e.2 with
    | none => simp [he] at h
    | some x =>
      cases hl : l.mapM fun e => (f e.2).map (e.1, ·) with
      | none => simp [he, hl] at h
      | some m' =>
        simp only [he, hl, Option.map_some, Option.bind_eq_bind, Option.bind_some, Option.pure_def,
          Option.some.injEq] at h
        rw [← h, List.map_cons, List.map_cons, ih hl]

theorem entries_ofList_of_keys {γ δ : Type} (m : SortedMap String γ) {l : List (String × δ)}
    (h : l.map Prod.fst = m.entries.map Prod.fst) : (SortedMap.ofList l).entries = l := by
  have hs : l.Pairwise KeyLt := by
    have hm : (m.entries.map Prod.fst).Pairwise fun a b => compare a b = .lt :=
      List.pairwise_map.2 m.sorted
    rw [← h, List.pairwise_map] at hm
    exact hm
  exact congrArg SortedMap.entries (SortedMap.ofList_entries ⟨l, hs⟩)

theorem map?_reread (depth : Nat) (m : SortedMap String β)
    (h : ∀ a ∈ m.values, (reread depth (toJson a)).bind ofJson? = some a) :
    (reread (depth + 1) (.ofMap toJson m)).bind (map? ofJson?) = some m := by
  have hfuse := mapM_bind_mapM (fun e : String × β => (reread depth (toJson e.2)).map (e.1, ·))
    (fun e => (ofJson? e.2).map (e.1, ·)) m.entries
  have hm : (m.entries.mapM fun e : String × β =>
      ((reread depth (toJson e.2)).map (e.1, ·)).bind fun e => (ofJson? e.2).map (e.1, ·)) =
      some (m.entries.map id) := by
    refine mapM_eq_some fun e he => ?_
    obtain ⟨x, hx, hread⟩ := Option.bind_eq_some_iff.1 (h e.2 (List.mem_map_of_mem he))
    rw [hx, Option.map_some, Option.bind_some, hread]
    rfl
  rw [hm, List.map_id, Option.bind_eq_some_iff] at hfuse
  -- the members are read in the order of the map, so sorting them changes nothing
  obtain ⟨l, hl, hread⟩ := hfuse
  have hkeys := keys_of_mapM (fun a => reread depth (toJson a)) hl
  rw [ofMap, reread_object, List.mapM_map]
  show ((m.entries.mapM fun e => (reread depth (toJson e.2)).map (e.1, ·)).map _).bind _ = _
  rw [hl, Option.map_some, Option.bind_some, entries_ofList_of_keys m hkeys, map?, hread,
    Option.map_some, SortedMap.ofList_entries]

theorem list?_strings (l : List String) : list? string? (.strings l) = some l := by
  have h : l.mapM (string? ∘ .string) = some (l.map id) := mapM_eq_some fun _ _ => rfl
  rw [strings, list?, List.mapM_map, h, List.map_id]

theorem reread_ofMap_string (depth : Nat) (m : SortedMap String String) :
    reread (depth + 1) (.ofMap .string m) = some (.ofMap .string m) := by
  have h : (m.entries.map fun e => (e.1, Json.string e.2)).mapM
      (fun e : String × Json => (reread depth e.2).map (e.1, ·)) =
      some ((m.entries.map fun e => (e.1, Json.string e.2)).map id) := by
    refine mapM_eq_some fun e he => ?_
    obtain ⟨e, -, rfl⟩ := List.mem_map.1 he
    rw [reread_string]
    rfl
  rw [ofMap, reread_object, h, List.map_id, Option.map_some, entries_ofList_of_keys m (by simp)]

theorem optional?_none {β : Type} (f : Json → Option β) : optional? f none = some none := rfl

theorem optional?_ofMap_string (m : SortedMap String String) :
    optional? (map? string?) (some (.ofMap .string m)) = some (some m) := by
  have hread : ∀ s ∈ m.values, (reread 0 (.string s)).bind string? = some s := by
    intro s _
    rw [reread_string]
    rfl
  have h := map?_reread 0 m hread
  rw [reread_ofMap_string, Option.bind_some] at h
  show (map? string? (.ofMap .string m)).map some = _
  rw [h, Option.map_some]

theorem fields?_sorted {l : List (String × Json)} (hn : (l.map Prod.fst).Nodup)
    (names : List String) :
    fields? names (.object (SortedMap.ofList l).entries) =
      some (names.map fun name => l.lookup name) := by
  rw [fields?]
  simp only [SortedMap.lookup_ofList hn]

end Reading

end Json

/-! ### Facts -/

open Json

theorem word64?_reread (depth : Nat) (w : UInt64) :
    (reread depth (.word64 w)).bind word64? = some w := by
  have h := reread_nat (le_refl UInt64.size) depth w.toNat
  rw [if_pos w.toNat_lt] at h
  obtain ⟨x, hx, hn⟩ := Option.bind_eq_some_iff.1 h
  rw [word64, hx, Option.bind_some, word64?, hn, Option.map_some, UInt64.ofNat_toNat]

theorem word32?_reread (depth : Nat) (w : UInt32) :
    (reread depth (.word32 w)).bind word32? = some w := by
  have h := reread_nat (show UInt32.size ≤ UInt64.size by decide) depth w.toNat
  rw [if_pos w.toNat_lt] at h
  obtain ⟨x, hx, hn⟩ := Option.bind_eq_some_iff.1 h
  rw [word32, hx, Option.bind_some, word32?, hn, Option.map_some, UInt32.ofNat_toNat]

theorem Emission.ofJson?_reread (depth : Nat) (e : Emission) :
    (reread (depth + 2) e.toJson).bind ofJson? = some e := by
  obtain ⟨x, hx, hline⟩ := Option.bind_eq_some_iff.1 (word64?_reread (depth + 1) e.line)
  unfold toJson toMembers
  rw [reread_object]
  simp only [List.mapM_cons, List.mapM_nil, reread_string, reread_strings, hx, Option.map_some,
    Option.bind_eq_bind, Option.bind_some, Option.pure_def]
  rw [ofJson?, fields?_sorted (by simp)]
  simp only [List.map_cons, List.map_nil, lookup_cons_if, String.reduceEq, if_true, if_false,
    string?, hline, list?_strings, Option.bind_eq_bind, Option.bind_some, Option.pure_def]

theorem Connection.ofJson?_reread (depth : Nat) (c : Connection) :
    (reread (depth + 2) c.toJson).bind ofJson? = some c := by
  obtain ⟨signalName, filePath, line, target, handler, flags, isLambda⟩ := c
  obtain ⟨x, hx, hline⟩ := Option.bind_eq_some_iff.1 (word64?_reread (depth + 1) line)
  unfold toJson toMembers
  rw [reread_object]
  cases target
  all_goals
    simp only [List.cons_append, List.nil_append, List.mapM_cons, List.mapM_nil, reread_string,
      reread_strings, reread_bool, hx, Option.map_some, Option.bind_eq_bind, Option.bind_some,
      Option.pure_def]
    rw [ofJson?, fields?_sorted (by simp)]
    simp only [List.map_cons, List.map_nil, lookup_cons_if, String.reduceEq, if_true, if_false,
      List.lookup_nil, string?, bool?, optional?, hline, list?_strings, Option.bind_eq_bind,
      Option.bind_some, Option.map_some, Option.pure_def]

theorem Definition.ofJson?_reread (depth : Nat) (d : Definition) :
    (reread (depth + 2) d.toJson).bind ofJson? = some d := by
  obtain ⟨name, params, paramTypes, filePath, line, source⟩ := d
  obtain ⟨x, hx, hline⟩ := Option.bind_eq_some_iff.1 (word64?_reread (depth + 1) line)
  unfold toJson toMembers
  rw [reread_object]
  cases paramTypes
  all_goals
    simp only [List.cons_append, List.nil_append, List.mapM_cons, List.mapM_nil, reread_string,
      reread_strings, reread_ofMap_string, hx, Option.map_some, Option.bind_eq_bind,
      Option.bind_some, Option.pure_def]
    rw [ofJson?, fields?_sorted (by simp)]
    simp only [List.map_cons, List.map_nil, lookup_cons_if, String.reduceEq, if_true, if_false,
      List.lookup_nil, string?, optional?_none, optional?_ofMap_string, hline, list?_strings,
      Option.bind_eq_bind, Option.bind_some, Option.pure_def]

/-! ### Counts -/

/-- A count that fits into a machine word. -/
def fitsWord (n : Nat) : Bool := n < UInt64.size

theorem count?_reread (depth n : Nat) :
    (reread depth (.nat n)).bind count? = if fitsWord n then some n else none := by
  have h := reread_nat (le_refl UInt64.size) depth n
  simpa [fitsWord, count?] using h

/-- A count that cannot be reread is no machine word; any other is taken for what was written
exactly if that is one. -/
theorem reread_count_cases (depth n : Nat) :
    (reread depth (.nat n) = none ∧ fitsWord n = false) ∨
      ∃ x, reread depth (.nat n) = some x ∧ count? x = if fitsWord n then some n else none := by
  have h := count?_reread depth n
  cases hx : reread depth (.nat n) with
  | none =>
    rw [hx, Option.bind_none] at h
    cases hn : fitsWord n with
    | false => exact .inl ⟨rfl, rfl⟩
    | true =>
      rw [hn] at h
      cases h
  | some x =>
    rw [hx, Option.bind_some] at h
    exact .inr ⟨x, rfl, h⟩

theorem bind_if {β γ : Type} (b : Bool) (a : β) (f : β → Option γ) :
    (if b then some a else none).bind f = if b then f a else none := by
  cases b <;> rfl

theorem if_if_none {β : Type} (b c : Bool) (o : Option β) :
    (if b then if c then o else none else none) = if b && c then o else none := by
  cases b <;> rfl

namespace Metadata

/-- Metadata that can be read back. -/
def fits (m : Metadata) : Bool :=
  fitsWord m.fileCount && fitsWord m.signalCount && fitsWord m.emissionCount &&
    fitsWord m.connectionCount

theorem ofJson?_reread (depth : Nat) (m : Metadata) :
    (reread (depth + 1) m.toJson).bind ofJson? = if m.fits then some m else none := by
  obtain ⟨v, t, f, s, e, c⟩ := m
  obtain ⟨xv, hxv, hv⟩ := Option.bind_eq_some_iff.1 (word32?_reread depth v)
  obtain ⟨xt, hxt, ht⟩ := Option.bind_eq_some_iff.1 (word64?_reread depth t)
  unfold toJson fits
  rw [reread_object]
  simp only [List.mapM_cons, List.mapM_nil, Option.bind_eq_bind, Option.pure_def]
  obtain ⟨hxf, hfits⟩ | ⟨xf, hxf, hf⟩ := reread_count_cases depth f
  · simp [hxv, hxt, hxf, hfits]
  obtain ⟨hxs, hfits⟩ | ⟨xs, hxs, hs⟩ := reread_count_cases depth s
  · simp [hxv, hxt, hxf, hxs, hfits]
  obtain ⟨hxe, hfits⟩ | ⟨xe, hxe, he⟩ := reread_count_cases depth e
  · simp [hxv, hxt, hxf, hxs, hxe, hfits]
  obtain ⟨hxc, hfits⟩ | ⟨xc, hxc, hc⟩ := reread_count_cases depth c
  · simp [hxv, hxt, hxf, hxs, hxe, hxc, hfits]
  simp only [hxv, hxt, hxf, hxs, hxe, hxc, Option.map_some, Option.bind_some]
  rw [ofJson?, fields?_sorted (by simp)]
  simp only [List.map_cons, List.map_nil, lookup_cons_if, String.reduceEq, if_true, if_false,
    hv, ht, hf, hs, he, hc, Option.bind_eq_bind, Option.bind_some, Option.pure_def, bind_if,
    if_if_none, Bool.and_assoc]

end Metadata

/-! ### Graphs -/

/-- A graph whose counts are machine words, as those of all graphs in memory are. -/
structure SizedGraph extends Graph where
  sized : metadata.fits = true

theorem Graph.ofJson?_reread (depth : Nat) (g : Graph) :
    (reread (depth + 5) g.toJson).bind ofJson? = if g.metadata.fits then some g else none := by
  obtain ⟨definitions, emissions, connections, metadata⟩ := g
  obtain ⟨xd, hxd, hd⟩ := Option.bind_eq_some_iff.1 <|
    map?_reread (depth + 3) definitions fun l _ =>
      list?_reread (depth + 2) l fun d _ => Definition.ofJson?_reread depth d
  obtain ⟨xe, hxe, he⟩ := Option.bind_eq_some_iff.1 <|
    map?_reread (depth + 3) emissions fun l _ =>
      list?_reread (depth + 2) l fun e _ => Emission.ofJson?_reread depth e
  obtain ⟨xc, hxc, hc⟩ := Option.bind_eq_some_iff.1 <|
    map?_reread (depth + 3) connections fun l _ =>
      list?_reread (depth + 2) l fun c _ => Connection.ofJson?_reread depth c
  have hm := Metadata.ofJson?_reread (depth + 3) metadata
  unfold toJson
  rw [reread_object]
  simp only [List.mapM_cons, List.mapM_nil, Option.bind_eq_bind, Option.pure_def, hxd, hxe, hxc,
    Option.map_some, Option.bind_some]
  cases hxm : reread (depth + 4) metadata.toJson with
  | none =>
    rw [hxm, Option.bind_none] at hm
    cases hfits : metadata.fits with
    | false => rfl
    | true =>
      rw [hfits] at hm
      cases hm
  | some xm =>
    rw [hxm, Option.bind_some] at hm
    simp only [Option.map_some, Option.bind_some]
    rw [ofJson?, fields?_sorted (by simp)]
    simp only [List.map_cons, List.map_nil, lookup_cons_if, String.reduceEq, if_true, if_false,
      hd, he, hc, hm, Option.bind_eq_bind, Option.bind_some, Option.pure_def, bind_if]

/-! ### Whole values -/

section Whole

open Raw

theorem wholeItems_eq_all (l : List Json) : wholeItems l = l.all whole := by
  induction l with
  | nil => rfl
  | cons v l ih => rw [wholeItems, ih, List.all_cons]

theorem wholeMembers_eq_all (l : List (String × Json)) : wholeMembers l = l.all (whole ·.2) := by
  induction l with
  | nil => rfl
  | cons m l ih =>
    obtain ⟨name, v⟩ := m
    rw [wholeMembers, ih, List.all_cons]

theorem whole_array {β : Type} {f : β → Json} (h : ∀ a, whole (f a) = true) (l : List β) :
    whole (.array (l.map f)) = true := by
  rw [whole, wholeItems_eq_all, List.all_eq_true]
  intro v hv
  obtain ⟨a, -, rfl⟩ := List.mem_map.1 hv
  exact h a

theorem whole_ofMap {β : Type} {f : β → Json} (h : ∀ a, whole (f a) = true)
    (m : SortedMap String β) : whole (.ofMap f m) = true := by
  rw [Json.ofMap, whole, wholeMembers_eq_all, List.all_eq_true]
  intro v hv
  obtain ⟨e, -, rfl⟩ := List.mem_map.1 hv
  exact h e.2

theorem whole_strings (l : List String) : whole (.strings l) = true := whole_array (fun _ => rfl) l

theorem Emission.whole_toJson (e : Emission) : whole e.toJson = true := by
  unfold toJson toMembers
  simp [whole, wholeMembers, word64, Json.nat, whole_strings]

theorem Connection.whole_toJson (c : Connection) : whole c.toJson = true := by
  obtain ⟨signalName, filePath, line, target, handler, flags, isLambda⟩ := c
  unfold toJson toMembers
  cases target <;> simp [whole, wholeMembers, word64, Json.nat, whole_strings]

theorem Definition.whole_toJson (d : Definition) : whole d.toJson = true := by
  obtain ⟨name, params, paramTypes, filePath, line, source⟩ := d
  have htypes : ∀ m, whole (.ofMap .string m) = true := whole_ofMap fun _ => rfl
  unfold toJson toMembers
  cases paramTypes <;> simp [whole, wholeMembers, word64, Json.nat, whole_strings, htypes]

theorem Graph.whole_toJson (g : Graph) : whole g.toJson = true := by
  unfold toJson Metadata.toJson
  simp [whole, wholeMembers, word32, word64, Json.nat,
    whole_ofMap (whole_array Definition.whole_toJson),
    whole_ofMap (whole_array Emission.whole_toJson),
    whole_ofMap (whole_array Connection.whole_toJson)]

end Whole

theorem Json.parse?_pretty {j : Json} (h : Raw.whole j = true) :
    Json.parse? (Text.bytes j.pretty) = reread Raw.maxDepth j := by
  rw [Json.parse?, Raw.parse?_pretty h]
  rfl

theorem Json.lookup_of_mapM {γ δ : Type} (f : γ → Option δ) {l : List (String × γ)}
    {m : List (String × δ)} (h : (l.mapM fun e => (f e.2).map (e.1, ·)) = some m) (name : String) :
    m.lookup name = (l.lookup name).bind f := by
  induction l generalizing m with
  | nil => cases h; rfl
  | cons e l ih =>
    obtain ⟨k, v⟩ := e
    rw [List.mapM_cons] at h
    cases hv : f v with
    | none => simp [hv] at h
    | some x =>
      cases hl : l.mapM fun e => (f e.2).map (e.1, ·) with
      | none => simp [hl] at h
      | some m' =>
        simp only [hv, hl, Option.map_some, Option.bind_eq_bind, Option.bind_some,
          Option.pure_def, Option.some.injEq] at h
        rw [← h, lookup_cons_if, lookup_cons_if, ih hl]
        split
        · exact hv.symm
        · rfl

/-- The members of a value that was read are read from the members of the value. -/
theorem Json.member?_of_reread {depth : Nat} {l : List (String × Json)} {j : Json}
    (hn : (l.map Prod.fst).Nodup) (h : reread (depth + 1) (.object l) = some j) (name : String) :
    j.member? name = (l.lookup name).bind (reread depth) := by
  rw [reread_object] at h
  obtain ⟨m, hm, rfl⟩ := Option.map_eq_some_iff.1 h
  rw [Json.member?, SortedMap.lookup_ofList (by rwa [keys_of_mapM _ hm]), lookup_of_mapM _ hm]

namespace Store

/-- The version that a stored graph tells. -/
def toldVersion (j : Json) : Option Json := (j.member? "metadata").bind (·.member? "schemaVersion")

/-- What a value with metadata tells when it is stored and parsed again. -/
theorem toldVersion_of_reread {depth : Nat} {l metadata : List (String × Json)} {v j : Json}
    (hl : (l.map Prod.fst).Nodup) (hmetadata : (metadata.map Prod.fst).Nodup)
    (hm : l.lookup "metadata" = some (.object metadata))
    (hv : metadata.lookup "schemaVersion" = some v)
    (h : Json.reread (depth + 2) (.object l) = some j) : toldVersion j = Json.reread depth v := by
  have hmember := Json.member?_of_reread hl h "metadata"
  rw [hm, Option.bind_some] at hmember
  rw [Json.reread_object] at h
  obtain ⟨read, hread, -⟩ := Option.map_eq_some_iff.1 h
  rw [SortedMap.lookup_eq_find?] at hm
  obtain ⟨b, hb⟩ := exists_of_mapM hread (SortedMap.mem_of_find?_eq_some hm)
  obtain ⟨x, hx, -⟩ := Option.map_eq_some_iff.1 hb
  have hversion := Json.member?_of_reread hmetadata hx "schemaVersion"
  rw [toldVersion, hmember, hx, Option.bind_some, hversion, hv, Option.bind_some]

theorem toldVersion_of_graph {depth : Nat} {g : Graph} {j : Json}
    (h : Json.reread (depth + 2) g.toJson = some j) :
    toldVersion j = Json.reread depth (.word32 g.metadata.schemaVersion) := by
  unfold Graph.toJson Metadata.toJson at h
  exact toldVersion_of_reread (by simp) (by simp) rfl rfl h

theorem version_of_reread {depth : Nat} {g : Graph} {j : Json}
    (hs : g.metadata.schemaVersion = Graph.schema) (h : reread (depth + 2) g.toJson = some j) :
    version j = Graph.schema := by
  show (((toldVersion j).bind word64?).getD 0).toUInt32 = _
  have hread : (reread depth (.word32 Graph.schema)).bind word64? = some 1 := word64?_reread depth 1
  rw [toldVersion_of_graph h, hs, hread]
  rfl

/-- A stored graph is read back, unless a count in it is no machine word. -/
theorem ofBytes?_toJson {g : Graph} (hs : g.metadata.schemaVersion = Graph.schema) :
    ofBytes? (Text.bytes g.toJson.pretty) = if g.metadata.fits then some g else none := by
  have hg := Graph.ofJson?_reread 122 g
  unfold ofBytes?
  rw [Json.parse?_pretty g.whole_toJson, show Raw.maxDepth = 122 + 5 from rfl]
  cases hr : reread (122 + 5) g.toJson with
  | none =>
    rw [hr, Option.bind_none] at hg
    exact hg
  | some j =>
    rw [hr, Option.bind_some] at hg
    simp only [version_of_reread hs hr, if_true]
    exact hg

end Store

/-! ### Ledgers -/

namespace Ledger

theorem natBelow?_ofJson (bound n : Nat) :
    (Raw.ofJson (.nat n)).natBelow? bound = if n < bound then some n else none := by
  have hneg : decide ((n : Int) < 0) = false := by simp
  rw [Json.nat, Raw.ofJson, Raw.natBelow?, Numeral.natBelow?]
  simp [hneg, Raw.ofDigits_decimal]

theorem entries?_ofMembers (l : List (String × Json)) :
    (Raw.object (Raw.ofMembers l)).entries? = some (l.map fun m => (m.1, Raw.ofJson m.2)) := by
  rw [Raw.entries?]
  induction l with
  | nil => rfl
  | cons m l ih =>
    obtain ⟨name, v⟩ := m
    rw [Raw.ofMembers, List.mapM_cons, ih, Raw.pieceText?_pieces]
    rfl

theorem fields?_ofMembers {l : List (String × Json)} (hn : (l.map Prod.fst).Nodup)
    (names : List String) :
    (Raw.object (Raw.ofMembers l)).fields? names =
      some (names.map fun name => (l.lookup name).map Raw.ofJson) := by
  have hcount : ∀ name, (l.map fun m => (m.1, Raw.ofJson m.2)).countP (·.1 == name) ≤ 1 := by
    intro name
    have h := List.nodup_iff_count_le_one.1 hn name
    rw [List.count, List.countP_map] at h
    rw [List.countP_map]
    exact h
  rw [Raw.fields?, entries?_ofMembers]
  · simp only [hcount, decide_true, List.all_eq_true, implies_true, if_true, lookup_map_value]
  · simp

theorem entryOf?_ofJson (e : LedgerEntry) : entryOf? (Raw.ofJson (entryJson e)) = some e := by
  obtain ⟨filePath, mtime, schemaVersion⟩ := e
  have hstring : ∀ s, (Raw.ofJson (.string s)).string? = some s := fun s => by
    rw [Raw.ofJson, Raw.string?, Raw.pieceText?_pieces]
  have hmtime : (Raw.ofJson (.word64 mtime)).word64? = some mtime := by
    rw [Raw.word64?, word64, natBelow?_ofJson, if_pos mtime.toNat_lt, Option.map_some,
      UInt64.ofNat_toNat]
  have hversion : (Raw.ofJson (.word32 schemaVersion)).word32? = some schemaVersion := by
    rw [Raw.word32?, word32, natBelow?_ofJson, if_pos schemaVersion.toNat_lt, Option.map_some,
      UInt32.ofNat_toNat]
  unfold entryOf? entryJson
  rw [Raw.ofJson, fields?_ofMembers (by simp)]
  simp only [List.map_cons, List.map_nil, lookup_cons_if, String.reduceEq, if_true, if_false,
    Option.map_some, hstring, hmtime, hversion, Option.bind_eq_bind, Option.bind_some,
    Option.pure_def]

/-- Stored entries are read back. -/
theorem entries?_toJson (l : Ledger) :
    entries? (Text.bytes l.toJson.pretty) = some l.entries := by
  have hw : Raw.whole l.toJson = true := whole_ofMap (fun _ => rfl) _
  have hread : (l.entries.entries.mapM fun e =>
      (entryOf? (Raw.ofJson (entryJson e.2))).map (e.1, ·)) = some (l.entries.entries.map id) := by
    refine mapM_eq_some fun e _ => ?_
    rw [entryOf?_ofJson]
    rfl
  unfold entries?
  rw [Raw.parse?_pretty hw, toJson, Json.ofMap, Raw.ofJson]
  simp only [Option.bind_eq_bind, Option.bind_some, entries?_ofMembers, List.map_map,
    List.mapM_map, Option.pure_def]
  show ((l.entries.entries.mapM fun e =>
    (entryOf? (Raw.ofJson (entryJson e.2))).map (e.1, ·)).bind fun m =>
      some (SortedMap.ofList m)) = _
  rw [hread, List.map_id, Option.bind_some, SortedMap.ofList_entries]

end Ledger

end SignalAtlas
