import Mathlib.Tactic
import SignalAtlas.Project.Scan
import SignalAtlas.Proofs.Places

/-!
# Places in a tree of files

What changing one place of a tree does there and below (`Item.at?_change`), and what it means to
follow the path of a place: along folders it leads to the item there (`item_pathOf`,
`resolve_entry`), and where no link stands in its way it leads nowhere else (`eq_of_walk_pathOf`).
A path can be too long for the operations, whatever lies at its end; `barrier?` tells so.
-/

namespace SignalAtlas

namespace Item

theorem at?_cons_folder (t : Int) (es : List (Bytes × Item)) (name : Bytes) (rest : Location) :
    (folder t es).at? (name :: rest) = (es.lookup name).bind fun it => it.at? rest := by
  rw [at?]
  cases es.lookup name <;> rfl

theorem at?_append (it : Item) (a b : Location) :
    it.at? (a ++ b) = (it.at? a).bind fun x => x.at? b := by
  induction a generalizing it with
  | nil => rw [List.nil_append, at?, Option.bind_some]
  | cons name a ih =>
    cases it with
    | folder t es =>
      rw [List.cons_append, at?_cons_folder, at?_cons_folder]
      cases es.lookup name with
      | none => rfl
      | some x => exact ih x
    | file b t => rfl
    | link p => rfl

theorem lookup_map (name other : Bytes) (g : Item → Item) (es : List (Bytes × Item)) :
    (es.map fun e => if e.1 = name then (e.1, g e.2) else e).lookup other =
      if other = name then (es.lookup other).map g else es.lookup other := by
  induction es with
  | nil => simp
  | cons e es ih =>
    obtain ⟨n, it⟩ := e
    simp only [List.map_cons, lookup_cons_if] at ih ⊢
    by_cases hn : n = name
    · subst hn
      simp only [if_true, lookup_cons_if, ih]
      split <;> rfl
    · simp only [hn, if_false, lookup_cons_if, ih]
      by_cases ho : other = n
      · simp [ho, hn]
      · simp [ho]

theorem lookup_setEntry (name other : Bytes) (it : Item) (es : List (Bytes × Item)) :
    (setEntry name it es).lookup other = if other = name then some it else es.lookup other := by
  induction es with
  | nil => rw [setEntry, lookup_cons_if]
  | cons e es ih =>
    obtain ⟨n, x⟩ := e
    rw [setEntry]
    by_cases hn : n = name
    · subst hn
      simp only [if_true, lookup_cons_if]
      split <;> rfl
    · simp only [hn, if_false, lookup_cons_if, ih]
      by_cases ho : other = n
      · simp [ho, hn]
      · simp [ho]

theorem lookup_filter_ne (name other : Bytes) (es : List (Bytes × Item)) :
    (es.filter fun e => e.1 ≠ name).lookup other =
      if other = name then none else es.lookup other := by
  induction es with
  | nil => simp
  | cons e es ih =>
    obtain ⟨n, x⟩ := e
    by_cases hn : n = name
    · subst hn
      rw [List.filter_cons_of_neg (by simp), ih, lookup_cons_if]
      split <;> rfl
    · rw [List.filter_cons_of_pos (by simpa using hn), lookup_cons_if, lookup_cons_if, ih]
      by_cases ho : other = n
      · simp [ho, hn]
      · simp [ho]

/-- A change at a place shows there and below. -/
theorem at?_change (f : Item → Item) (loc rest : Location) (it : Item) :
    (change f loc it).at? (loc ++ rest) = (it.at? loc).bind fun x => (f x).at? rest := by
  induction loc generalizing it with
  | nil => rfl
  | cons name loc ih =>
    cases it with
    | folder t es =>
      rw [change, List.cons_append, at?_cons_folder, at?_cons_folder, lookup_map, if_pos rfl]
      cases es.lookup name with
      | none => rfl
      | some x => exact ih x
    | file b t => rfl
    | link p => rfl

/-- The item is no symbolic link. -/
def NotLink (it : Item) : Prop := ∀ target, it ≠ .link target

theorem notLink_folder (t : Int) (es : List (Bytes × Item)) : NotLink (.folder t es) := nofun

theorem notLink_file (b : Bytes) (t : Int) : NotLink (.file b t) := nofun

end Item

namespace Disk

variable {d : Disk} {loc names : Location} {root it : Item} {t : Trail} {aim : Aim}

/-! ### Following names -/

theorem location_cons (name : Bytes) (it : Item) (t : Trail) :
    Trail.location ((name, it) :: t) = t.location ++ [name] := by
  simp [Trail.location]

/-- Some name is longer than a name may be. -/
def tooLong (names : Location) : Bool := names.any fun s => maxName < s.length

/-- One name of a path that is followed in a folder. -/
theorem follow_cons {links : Nat} {name : Bytes} {time : Int} {es : List (Bytes × Item)}
    (hn : IsName name) (hr : ∀ s ∈ names, IsName s) (hf : t.item root = .folder time es) :
    follow root aim links t (name :: names) =
      if maxName < name.length then .error .nameTooLong
      else
        match es.lookup name with
        | none => if names.isEmpty then .ok (t.location ++ [name], none) else .error .notFound
        | some (.link target) =>
          if names.isEmpty && aim = .entry then .ok (t.location ++ [name], some (.link target))
          else
            match links with
            | 0 => .error .tooManyLinks
            | links + 1 =>
              follow root aim links (if target.isAbsolute then [] else t) (steps target ++ names)
        | some it => follow root aim links ((name, it) :: t) names := by
  have hall : (decide (aim = .file) && !names.isEmpty && names.all (· == [])) = false := by
    cases names with
    | nil => simp
    | cons s l => simp [(hr s (by simp)).ne_nil]
  have hdot : (name == [] || name == [dot]) = false := by simp [hn.ne_nil, hn.2.1]
  have hup : (name == [dot, dot]) = false := by simp [hn.2.2.1]
  rw [follow, hf]
  cases hx : es.lookup name with
  | none => simp only [hx, hdot, hup, hall, Bool.false_eq_true, if_false]
  | some it =>
    cases it with
    | file b time => simp only [hx, hdot, hup, hall, Bool.false_eq_true, if_false]
    | folder time es => simp only [hx, hdot, hup, hall, Bool.false_eq_true, if_false]
    | link target =>
      cases links <;> simp only [hx, hdot, hup, hall, Bool.false_eq_true, if_false]

/-- Names that lead along folders are followed to what stands at their end, and on from there. -/
theorem follow_append (aim : Aim) (links : Nat) (rest : Location) (hn : ∀ s ∈ names, IsName s)
    (hr : ∀ s ∈ rest, IsName s) (h : (t.item root).at? names = some it) (hl : it.NotLink) :
    ∃ t' : Trail, t'.item root = it ∧ t'.location = t.location ++ names ∧
      follow root aim links t (names ++ rest) =
        if tooLong names then .error .nameTooLong else follow root aim links t' rest := by
  induction names generalizing t with
  | nil =>
    rw [Item.at?] at h
    cases h
    exact ⟨t, rfl, (List.append_nil _).symm, rfl⟩
  | cons name names ih =>
    cases hf : t.item root with
    | file b m => rw [hf, Item.at?] at h; cases h; simp
    | link p => rw [hf, Item.at?] at h; cases h; simp
    | folder m es =>
      rw [hf, Item.at?_cons_folder] at h
      obtain ⟨x, hx, hxr⟩ := Option.bind_eq_some_iff.1 h
      have hnames : ∀ s ∈ names, IsName s := fun s hs => hn s (List.mem_cons_of_mem _ hs)
      have hall : ∀ s ∈ names ++ rest, IsName s := fun s hs =>
        (List.mem_append.1 hs).elim (hnames s) (hr s)
      obtain ⟨t', hitem, hloc, hfol⟩ := ih (t := (name, x) :: t) hnames hxr
      refine ⟨t', hitem, by rw [hloc, location_cons, List.append_assoc]; rfl, ?_⟩
      rw [List.cons_append, follow_cons (hn name (by simp)) hall hf, hx]
      by_cases hsize : maxName < name.length
      · rw [if_pos hsize, tooLong, List.any_cons, decide_eq_true hsize, Bool.true_or, if_pos rfl]
      · have hlong : tooLong (name :: names) = tooLong names := by
          rw [tooLong, List.any_cons, decide_eq_false hsize, Bool.false_or]; rfl
        rw [if_neg hsize, hlong]
        -- a link cannot be passed on the way, and is not what stands at the end
        cases x with
        | link p =>
          cases names with
          | nil => rw [Item.at?] at hxr; cases hxr; exact absurd rfl (hl p)
          | cons s l => rw [Item.at?] at hxr; cases hxr; simp
        | file b m => exact hfol
        | folder m es => exact hfol

/-- Where no link stands in the way, names lead to the location that they spell. -/
theorem location_of_follow {links : Nat} {l : Location} {x : Option Item}
    (hn : ∀ s ∈ names, IsName s)
    (hfree : ∀ pre, pre <+: names → ∀ p, (t.item root).at? pre ≠ some (.link p))
    (h : follow root aim links t names = .ok (l, x)) :
    l = t.location ++ names ∧ x = (t.item root).at? names := by
  induction names generalizing t with
  | nil =>
    rw [follow] at h
    cases h
    exact ⟨(List.append_nil _).symm, rfl⟩
  | cons name names ih =>
    have hnames : ∀ s ∈ names, IsName s := fun s hs => hn s (List.mem_cons_of_mem _ hs)
    cases hf : t.item root with
    | file b m => rw [follow, hf] at h; cases h
    | link p => rw [follow, hf] at h; cases h
    | folder m es =>
      rw [follow_cons (hn name (by simp)) hnames hf] at h
      rw [Item.at?_cons_folder]
      split at h
      · cases h
      · cases hx : es.lookup name with
        | none =>
          rw [hx] at h
          cases names with
          | nil => cases h; exact ⟨rfl, rfl⟩
          | cons s r => cases h
        | some y =>
          rw [hx] at h
          have hy : ∀ p, y ≠ .link p := by
            rintro p rfl
            apply hfree [name] (by simp) p
            rw [hf, Item.at?_cons_folder, hx]
            rfl
          have hfree' : ∀ pre, pre <+: names → ∀ p, y.at? pre ≠ some (.link p) := by
            intro pre hpre p hp
            apply hfree (name :: pre) (List.prefix_cons_inj name |>.2 hpre) p
            rw [hf, Item.at?_cons_folder, hx]
            exact hp
          have key := ih (t := (name, y) :: t) hnames hfree'
          rw [location_cons, List.append_assoc] at key
          cases y with
          | link p => exact absurd rfl (hy p)
          | file b m => exact key h
          | folder m es => exact key h

/-! ### Paths of places -/

/-- What keeps the operations from using the path of a place, whatever the disk holds. -/
def barrier? (loc : Location) : Option IoError :=
  (refused? (pathOf loc)).or (if tooLong loc then some .nameTooLong else none)

theorem walk_pathOf_eq (hl : loc ≠ []) (hn : ∀ s ∈ loc, IsName s) :
    d.walk (pathOf loc) aim =
      if (pathOf loc).bytes.contains 0 then .error .nul
      else follow d.root aim maxLinks [] loc := by
  have hne : ((pathOf loc).bytes == []) = false := rfl
  unfold walk
  rw [hne, isAbsolute_pathOf, steps_pathOf hl hn]
  rfl

theorem contains_nul_of_refused? {p : Path} (h : refused? p = none) :
    p.bytes.contains 0 = false := by
  unfold refused? at h
  by_contra hc
  rw [Bool.not_eq_false] at hc
  rw [if_pos hc] at h
  cases h

/-- The path of a place in a folder leads to the entry there, unless a link stands there. -/
theorem resolve_entry {name : Bytes} {time : Int} {es : List (Bytes × Item)}
    (hn : ∀ s ∈ loc, IsName s) (hname : IsName name)
    (h : d.root.at? loc = some (.folder time es)) (hx : ∀ p, es.lookup name ≠ some (.link p)) :
    d.resolve (pathOf (loc ++ [name])) aim =
      (barrier? (loc ++ [name])).elim (.ok (loc ++ [name], es.lookup name)) .error := by
  have hall := isName_concat hn hname
  unfold resolve barrier?
  cases hr : refused? (pathOf (loc ++ [name])) with
  | some e => rfl
  | none =>
    obtain ⟨t', hitem, hloc, hfol⟩ := follow_append (t := []) aim maxLinks [name] hn
      (by simpa using hname) h (Item.notLink_folder time es)
    have hloc' : t'.location = loc := hloc
    simp only
    rw [walk_pathOf_eq (by simp) hall, contains_nul_of_refused? hr, hfol,
      follow_cons hname (by simp) hitem]
    have hlong : tooLong (loc ++ [name]) =
        (tooLong loc || decide (maxName < name.length)) := by
      simp [tooLong, List.any_append]
    rw [hlong]
    cases tooLong loc with
    | true => simp
    | false =>
      by_cases hsize : maxName < name.length
      · simp [hsize]
      · cases hes : es.lookup name with
        | none => simp [hsize, hloc']
        | some x =>
          cases x with
          | link p => exact absurd hes (hx p)
          | file b m => simp [hsize, follow, location_cons, hloc', Trail.item]
          | folder m fs => simp [hsize, follow, location_cons, hloc', Trail.item]

/-- An item that is no link is found at the path of its place, unless the path cannot be used. -/
theorem item_pathOf (hl : loc ≠ []) (hn : ∀ s ∈ loc, IsName s) (h : d.root.at? loc = some it)
    (hit : it.NotLink) : d.item (pathOf loc) = (barrier? loc).elim (.ok it) .error := by
  unfold item find resolve barrier?
  cases hr : refused? (pathOf loc) with
  | some e => rfl
  | none =>
    obtain ⟨t', hitem, -, hfol⟩ := follow_append (t := []) .item maxLinks [] hn (by simp) h hit
    rw [List.append_nil] at hfol
    simp only
    rw [walk_pathOf_eq hl hn, contains_nul_of_refused? hr, hfol]
    cases tooLong loc with
    | true => rfl
    | false => simp [follow, hitem, existing, Except.map]

/-! ### Ways without links -/

/-- No symbolic link stands on the way to a place or at it. -/
def LinkFree (d : Disk) (loc : Location) : Prop :=
  ∀ pre, pre <+: loc → ∀ target, d.root.at? pre ≠ some (.link target)

theorem LinkFree.above {pre : Location} (h : d.LinkFree loc) (hp : pre <+: loc) :
    d.LinkFree pre :=
  fun q hq => h q (hq.trans hp)

theorem LinkFree.of_folder {time : Int} {es : List (Bytes × Item)}
    (h : d.root.at? loc = some (.folder time es)) : d.LinkFree loc := by
  rintro pre ⟨rest, rfl⟩ target hlink
  rw [Item.at?_append, hlink, Option.bind_some] at h
  cases rest with
  | nil => cases h
  | cons s rest => cases h

/-- A path without links on its way leads to the place that it names and nowhere else. -/
theorem eq_of_walk_pathOf {l : Location} {x : Option Item} (hn : ∀ s ∈ loc, IsName s)
    (hf : d.LinkFree loc) (h : d.walk (pathOf loc) aim = .ok (l, x)) :
    l = loc ∧ x = d.root.at? loc := by
  by_cases hl : loc = []
  · subst hl
    have hw : d.walk (pathOf []) aim = follow d.root aim maxLinks [] [[]] := rfl
    rw [hw, follow] at h
    split at h
    · rw [if_pos (by rfl), follow] at h
      cases h
      exact ⟨rfl, rfl⟩
    · cases h
  · rw [walk_pathOf_eq hl hn] at h
    split at h
    · cases h
    · exact location_of_follow (t := []) hn hf h

theorem eq_of_resolve_pathOf {l : Location} {x : Option Item} (hn : ∀ s ∈ loc, IsName s)
    (hf : d.LinkFree loc) (h : d.resolve (pathOf loc) aim = .ok (l, x)) :
    l = loc ∧ x = d.root.at? loc := by
  unfold resolve at h
  split at h
  · cases h
  · exact eq_of_walk_pathOf hn hf h

theorem at?_of_item (hn : ∀ s ∈ loc, IsName s) (hf : d.LinkFree loc)
    (h : d.item (pathOf loc) = .ok it) : d.root.at? loc = some it := by
  unfold item find existing at h
  cases hr : d.resolve (pathOf loc) .item with
  | error e => rw [hr] at h; cases h
  | ok e =>
    obtain ⟨l, x⟩ := e
    rw [hr] at h
    obtain ⟨-, hx⟩ := eq_of_resolve_pathOf hn hf hr
    cases x with
    | none => cases h
    | some y => cases h; exact hx.symm

theorem at?_of_read {b : Bytes} (hn : ∀ s ∈ loc, IsName s) (hf : d.LinkFree loc)
    (h : d.read (pathOf loc) = .ok b) : ∃ time, d.root.at? loc = some (.file b time) := by
  unfold read at h
  split at h
  · next b' time hi =>
    cases h
    exact ⟨time, at?_of_item hn hf hi⟩
  · cases h
  · cases h

/-- A project's folder that no link leads to is its own canonical path, and a folder is there. -/
theorem resolveRoot_pathOf {time : Int} {es : List (Bytes × Item)} (hl : loc ≠ [])
    (hn : ∀ s ∈ loc, IsName s) (hat : d.root.at? loc = some (.folder time es))
    (hb : barrier? loc = none) : Scan.resolveRoot d (pathOf loc) = .ok (pathOf loc) := by
  have hitem := item_pathOf hl hn hat (Item.notLink_folder time es)
  rw [hb] at hitem
  have hfolder : d.hasFolder (pathOf loc) = true := by
    unfold hasFolder
    rw [hitem]
    rfl
  have hwalk : existing (d.walk (pathOf loc) .item) = .ok (loc, .folder time es) := by
    unfold item find resolve at hitem
    split at hitem
    · cases hitem
    · cases hw : d.walk (pathOf loc) .item with
      | error e => rw [hw] at hitem; cases hitem
      | ok e =>
        obtain ⟨l, x⟩ := e
        obtain ⟨rfl, rfl⟩ := eq_of_walk_pathOf hn (.of_folder hat) hw
        rw [hat]
        rfl
  unfold Scan.resolveRoot canonical
  rw [hwalk]
  simp only [Except.map, hfolder, if_true]

theorem folder_of_resolveRoot {r : Path} (hn : ∀ s ∈ loc, IsName s) (hf : d.LinkFree loc)
    (h : Scan.resolveRoot d (pathOf loc) = .ok r) :
    r = pathOf loc ∧ ∃ time es, d.item (pathOf loc) = .ok (.folder time es) ∧
      d.root.at? loc = some (.folder time es) := by
  unfold Scan.resolveRoot canonical existing at h
  cases hw : d.walk (pathOf loc) .item with
  | error e => rw [hw] at h; cases h
  | ok e =>
    obtain ⟨l, x⟩ := e
    obtain ⟨rfl, hx⟩ := eq_of_walk_pathOf hn hf hw
    rw [hw] at h
    cases x with
    | none => cases h
    | some y =>
      simp only [Except.map] at h
      split at h
      · next hfolder =>
        cases h
        refine ⟨rfl, ?_⟩
        unfold hasFolder at hfolder
        split at hfolder
        · next it hi =>
          cases it with
          | folder time es => exact ⟨time, es, hi, at?_of_item hn hf hi⟩
          | file b time => cases hfolder
          | link target => cases hfolder
        · cases hfolder
      · cases h

end Disk

end SignalAtlas
