import Mathlib.Tactic
import SignalAtlas.Proofs.Trees

/-!
# Saving a file of a project

`Disk.save` creates the state folder, writes a temporary file and moves it into its place. Each of
these may fail. `save_effect` says what is left behind in any case: the saved file holds the new
contents if all went well and its old ones otherwise, and apart from it and its temporary file the
state folder holds what it held.
-/

namespace SignalAtlas

namespace Item

/-- A change below a place shows in the item at that place. -/
theorem at?_change_above (f : Item → Item) (loc rest : Location) (it : Item) :
    (change f (loc ++ rest) it).at? loc = (it.at? loc).map (change f rest) := by
  induction loc generalizing it with
  | nil => rfl
  | cons name loc ih =>
    cases it with
    | folder t es =>
      rw [List.cons_append, change, at?_cons_folder, at?_cons_folder, lookup_map, if_pos rfl]
      cases es.lookup name with
      | none => rfl
      | some x => exact ih x
    | file b t => rfl
    | link p => rfl

theorem change_append (f : Item → Item) (loc rest : Location) (it : Item) :
    change f (loc ++ rest) it = change (change f rest) loc it := by
  induction loc generalizing it with
  | nil => rfl
  | cons name loc ih =>
    cases it with
    | folder t es => simp only [List.cons_append, change, ih]
    | file b t => rfl
    | link p => rfl

theorem change_change (f g : Item → Item) (loc : Location) (it : Item) :
    change f loc (change g loc it) = change (f ∘ g) loc it := by
  induction loc generalizing it with
  | nil => rfl
  | cons name loc ih =>
    cases it with
    | folder t es =>
      simp only [change, List.map_map, folder.injEq, true_and]
      refine List.map_congr_left fun e _ => ?_
      by_cases he : e.1 = name
      · simp [he, ih]
      · simp [he]
    | file b t => rfl
    | link p => rfl

variable {root it : Item} {loc : Location} {name : Bytes} {now : Int}

theorem put_concat : root.put (loc ++ [name]) it now = change (withEntry name it now) loc root := by
  simp [put]

/-- What is put at a place is there. -/
theorem at?_put_self {time : Int} {es : List (Bytes × Item)}
    (h : root.at? loc = some (.folder time es)) :
    (root.put (loc ++ [name]) it now).at? (loc ++ [name]) = some it := by
  rw [put_concat, at?_change, h, Option.bind_some, withEntry, at?_cons_folder, lookup_setEntry,
    if_pos rfl]
  rfl

theorem drop_concat : root.drop (loc ++ [name]) now = change (withoutEntry name now) loc root := by
  simp [drop]

end Item

namespace Disk

variable {d d' : Disk} {loc : Location} {name other : Bytes} {b : Bytes}

/-! ### Entries of a folder -/

/-- What the entries of the folder at a place stand for. None of them is a link. -/
structure Holds (d : Disk) (loc : Location) (view : Bytes → Option Item) : Prop where
  folder : ∃ time es, d.root.at? loc = some (.folder time es) ∧ ∀ name, es.lookup name = view name
  plain : ∀ name target, view name ≠ some (.link target)

variable {view : Bytes → Option Item}

theorem Holds.at? (h : d.Holds loc view) (name : Bytes) :
    d.root.at? (loc ++ [name]) = view name := by
  obtain ⟨time, es, hf, hv⟩ := h.folder
  rw [Item.at?_append, hf, Option.bind_some, Item.at?_cons_folder, hv]
  cases view name <;> rfl

theorem Holds.resolve {aim : Aim} (h : d.Holds loc view) (hn : ∀ s ∈ loc, IsName s)
    (hname : IsName name) :
    d.resolve (pathOf (loc ++ [name])) aim =
      (barrier? (loc ++ [name])).elim (.ok (loc ++ [name], view name)) .error := by
  obtain ⟨time, es, hf, hv⟩ := h.folder
  rw [← hv]
  exact resolve_entry hn hname hf fun target => by rw [hv]; exact h.plain name target

/-- Changing the entries of a folder. -/
theorem Holds.change {f : Item → Item} {view' : Bytes → Option Item} (h : d.Holds loc view)
    (hroot : d'.root = Item.change f loc d.root)
    (hf : ∀ time es, (∀ name, es.lookup name = view name) →
      ∃ time' es', f (.folder time es) = .folder time' es' ∧ ∀ name, es'.lookup name = view' name)
    (hp : ∀ name target, view' name ≠ some (.link target)) : d'.Holds loc view' := by
  obtain ⟨time, es, hat, hv⟩ := h.folder
  obtain ⟨time', es', hfold, hv'⟩ := hf time es hv
  refine ⟨⟨time', es', ?_, hv'⟩, hp⟩
  have hc := Item.at?_change f loc [] d.root
  rw [List.append_nil, hat, Option.bind_some] at hc
  rw [hroot, hc, hfold, Item.at?]

theorem plain_update (it : Option Item) (h : ∀ name target, view name ≠ some (.link target))
    (hit : ∀ target, it ≠ some (.link target)) (name : Bytes) :
    ∀ m target, Function.update view name it m ≠ some (.link target) := by
  intro m target
  by_cases hm : m = name
  · subst hm
    rw [Function.update_self]
    exact hit target
  · rw [Function.update_of_ne hm]
    exact h m target

theorem Holds.put {it : Item} {now : Int} (h : d.Holds loc view) (hit : it.NotLink)
    (hroot : d'.root = d.root.put (loc ++ [name]) it now) :
    d'.Holds loc (Function.update view name (some it)) := by
  rw [Item.put_concat] at hroot
  refine h.change hroot ?_
    (plain_update _ h.plain (fun target he => hit target (by simpa using he)) _)
  intro time es hv
  refine ⟨now, Item.setEntry name it es, rfl, fun m => ?_⟩
  rw [Item.lookup_setEntry, hv, Function.update_apply]

theorem Holds.drop {now : Int} (h : d.Holds loc view)
    (hroot : d'.root = d.root.drop (loc ++ [name]) now) :
    d'.Holds loc (Function.update view name none) := by
  rw [Item.drop_concat] at hroot
  refine h.change hroot ?_ (plain_update _ h.plain (by simp) _)
  intro time es hv
  refine ⟨now, es.filter fun e => e.1 ≠ name, rfl, fun m => ?_⟩
  rw [Item.lookup_filter_ne, hv, Function.update_apply]

theorem Holds.replace {it x : Item} (h : d.Holds loc view) (hit : it.NotLink)
    (hx : view name = some x)
    (hroot : d'.root = Item.change (fun _ => it) (loc ++ [name]) d.root) :
    d'.Holds loc (Function.update view name (some it)) := by
  obtain ⟨time, es, hat, hv⟩ := h.folder
  have hp := plain_update (some it) h.plain
    (fun target he => hit target (by simpa using he)) name
  have hc := Item.at?_change_above (fun _ => it) loc [name] d.root
  rw [hat] at hc
  refine ⟨⟨_, _, by rw [hroot, hc]; rfl, fun m => ?_⟩, hp⟩
  rw [Item.lookup_map, hv, Function.update_apply]
  split
  · next hm => rw [hm, hx]; rfl
  · rfl

/-! ### Changes below a place -/

/-- Two disks differ in nothing but the item at a place. -/
def Within (d d' : Disk) (loc : Location) : Prop := ∃ f, d'.root = Item.change f loc d.root

theorem Within.trans {d'' : Disk} (h : d.Within d' loc) (h' : d'.Within d'' loc) :
    d.Within d'' loc := by
  obtain ⟨f, hf⟩ := h
  obtain ⟨g, hg⟩ := h'
  exact ⟨g ∘ f, by rw [hg, hf, Item.change_change]⟩

/-! ### Writing and moving entries -/

theorem Holds.write (h : d.Holds loc view) (hn : ∀ s ∈ loc, IsName s) (hname : IsName name)
    (hw : d.write (pathOf (loc ++ [name])) b = .ok d') :
    d'.Holds loc (Function.update view name (some (.file b d.nowNs))) ∧ d.Within d' loc := by
  unfold Disk.write writeAt at hw
  rw [h.resolve hn hname] at hw
  cases hb : barrier? (loc ++ [name]) with
  | some e => rw [hb] at hw; cases hw
  | none =>
    rw [hb] at hw
    cases hv : view name with
    | none =>
      simp only [hv, Option.elim] at hw
      cases hw
      exact ⟨h.put (Item.notLink_file _ _) rfl, _, Item.put_concat⟩
    | some x =>
      simp only [hv, Option.elim] at hw
      cases x with
      | folder time es => cases hw
      | link target => exact absurd hv (h.plain name target)
      | file c time =>
        cases hw
        exact ⟨h.replace (Item.notLink_file _ _) hv rfl, _, Item.change_append _ loc [name] d.root⟩

theorem Holds.exists_write (h : d.Holds loc view) (hn : ∀ s ∈ loc, IsName s) (hname : IsName name)
    (hb : barrier? (loc ++ [name]) = none) (hv : ∀ time es, view name ≠ some (.folder time es))
    (b : Bytes) : ∃ d', d.write (pathOf (loc ++ [name])) b = .ok d' := by
  unfold Disk.write writeAt
  rw [h.resolve hn hname, hb]
  cases hx : view name with
  | none => exact ⟨_, rfl⟩
  | some x =>
    cases x with
    | folder time es => exact absurd hx (hv time es)
    | link target => exact ⟨_, rfl⟩
    | file c time => exact ⟨_, rfl⟩

theorem withoutSlashes_eq_self {p : Path} (h : endsInSlash p = false) : withoutSlashes p = p := by
  unfold withoutSlashes
  cases hr : p.bytes.reverse with
  | nil => simp
  | cons c cs =>
    have hc : c ≠ slash := by
      rintro rfl
      rw [endsInSlash, ← List.head?_reverse, hr] at h
      simp at h
    have ht : p.bytes = (c :: cs).reverse := by
      rw [← hr, List.reverse_reverse]
    rw [List.dropWhile_cons_of_neg (by simpa using hc), ← ht]
    have hne : p.bytes.isEmpty = false := by rw [ht]; simp
    simp only [hne]
    rfl

theorem endsInSlash_pathOf (hl : loc ≠ []) (hn : ∀ s ∈ loc, IsName s) :
    endsInSlash (pathOf loc) = false := by
  unfold endsInSlash
  rw [beq_eq_false_iff_ne]
  exact getLast?_pathOf hl hn

theorem withoutSlashes_pathOf (hl : loc ≠ []) (hn : ∀ s ∈ loc, IsName s) :
    withoutSlashes (pathOf loc) = pathOf loc :=
  withoutSlashes_eq_self (endsInSlash_pathOf hl hn)

theorem endsInDots_pathOf (hn : ∀ s ∈ loc, IsName s) (hname : IsName name) :
    endsInDots (pathOf (loc ++ [name])) = false := by
  have hall := isName_concat hn hname
  unfold endsInDots
  rw [withoutSlashes_pathOf (by simp) hall, segments_pathOf (by simp) hall]
  have hlast : ([] :: (loc ++ [name])).getLast? = some name := by
    rw [← List.cons_append, List.getLast?_concat]
  rw [hlast]
  simp [hname.2.1, hname.2.2.1]

theorem entry_pathOf (hl : loc ≠ []) (hn : ∀ s ∈ loc, IsName s) :
    d.entry (pathOf loc) = d.resolve (pathOf loc) .entry := by
  unfold entry
  rw [withoutSlashes_pathOf hl hn]
  unfold resolve
  cases refused? (pathOf loc) <;> rfl

/-- Moving an entry to another name of its folder. -/
theorem Holds.rename (h : d.Holds loc view) (hn : ∀ s ∈ loc, IsName s) (hname : IsName name)
    (hother : IsName other) (hne : name ≠ other)
    (hr : d.rename (pathOf (loc ++ [name])) (pathOf (loc ++ [other])) = .ok d') :
    ∃ it, view name = some it ∧ barrier? (loc ++ [other]) = none ∧
      d'.Holds loc (Function.update (Function.update view name none) other (some it)) ∧
      d.Within d' loc := by
  have hall := isName_concat hn hother
  unfold Disk.rename find at hr
  rw [endsInDots_pathOf hn hother, endsInSlash_pathOf (by simp) hall, h.resolve hn hname] at hr
  rw [if_neg (by simp), entry_pathOf (by simp) hall, h.resolve hn hother] at hr
  cases hb : barrier? (loc ++ [name]) with
  | some e => rw [hb] at hr; cases hr
  | none =>
    rw [hb] at hr
    cases hv : view name with
    | none => rw [hv] at hr; cases hr
    | some it =>
      rw [hv] at hr
      cases hb' : barrier? (loc ++ [other]) with
      | some e => rw [hb'] at hr; cases hr
      | none =>
        rw [hb'] at hr
        have hloc : loc ++ [name] ≠ loc ++ [other] := by simpa using hne
        simp only [Option.elim, existing, Bool.false_and, Bool.false_eq_true, if_false, hloc] at hr
        split at hr
        · cases hr
        · cases hr
          have hit : it.NotLink := fun target he => h.plain name target (by rw [hv, he])
          have hdrop : Holds { d with root := d.root.drop (loc ++ [name]) d.nowNs } loc
              (Function.update view name none) := h.drop rfl
          have hin : d.Within { d with root := d.root.drop (loc ++ [name]) d.nowNs } loc :=
            ⟨_, Item.drop_concat⟩
          exact ⟨it, rfl, rfl, hdrop.put hit rfl, hin.trans ⟨_, Item.put_concat⟩⟩

theorem Holds.exists_rename {time : Int} (h : d.Holds loc view) (hn : ∀ s ∈ loc, IsName s)
    (hname : IsName name) (hother : IsName other) (hb : barrier? (loc ++ [name]) = none)
    (hb' : barrier? (loc ++ [other]) = none) (hv : view name = some (.file b time))
    (hv' : ∀ time es, view other ≠ some (.folder time es)) :
    ∃ d', d.rename (pathOf (loc ++ [name])) (pathOf (loc ++ [other])) = .ok d' := by
  have hall := isName_concat hn hother
  have hfile : (view other).any Item.isFolder = false := by
    cases hx : view other with
    | none => rfl
    | some x =>
      cases x with
      | folder time es => exact absurd hx (hv' time es)
      | link target => rfl
      | file c time => rfl
  unfold Disk.rename find
  rw [endsInDots_pathOf hn hother, endsInSlash_pathOf (by simp) hall, h.resolve hn hname, hb, hv]
  rw [if_neg (by simp), entry_pathOf (by simp) hall, h.resolve hn hother, hb']
  simp only [Option.elim, existing, Bool.false_and, Bool.false_eq_true, if_false, hfile]
  split
  · exact ⟨_, rfl⟩
  · exact ⟨_, rfl⟩

/-! ### The state folder -/

/-- The place of a file in the state folder of a project. -/
def statePlace (loc : Location) (name : Bytes) : Location := loc ++ [Store.stateFolder] ++ [name]

/-- What stands at a name in the state folder of a project. -/
def stored (d : Disk) (loc : Location) (name : Bytes) : Option Item :=
  d.root.at? (statePlace loc name)

/-- A file in the state folder of a project holds some bytes, and its path is not too long. -/
structure Stores (d : Disk) (loc : Location) (name : Bytes) (b : Bytes) : Prop where
  short : barrier? (statePlace loc name) = none
  file : ∃ time, d.stored loc name = some (.file b time)

/-- The entries of a project's folder besides the state folder. -/
def outside (es : List (Bytes × Item)) : List (Bytes × Item) :=
  es.filter fun e => e.1 ≠ Store.stateFolder

/-- A disk holds the project of another one, but for its state folder. -/
def SameOutside (d d' : Disk) (loc : Location) : Prop :=
  ∀ time es, d.root.at? loc = some (.folder time es) →
    ∃ time' es', d'.root.at? loc = some (.folder time' es') ∧ outside es' = outside es

theorem SameOutside.refl (d : Disk) (loc : Location) : d.SameOutside d loc :=
  fun time es h => ⟨time, es, h, rfl⟩

theorem SameOutside.trans {d'' : Disk} (h : d.SameOutside d' loc) (h' : d'.SameOutside d'' loc) :
    d.SameOutside d'' loc := by
  intro time es hat
  obtain ⟨time', es', hat', he'⟩ := h time es hat
  obtain ⟨time'', es'', hat'', he''⟩ := h' time' es' hat'
  exact ⟨time'', es'', hat'', he''.trans he'⟩

theorem outside_map (g : Item → Item) (es : List (Bytes × Item)) :
    outside (es.map fun e => if e.1 = Store.stateFolder then (e.1, g e.2) else e) =
      outside es := by
  unfold outside
  induction es with
  | nil => rfl
  | cons e es ih =>
    by_cases he : e.1 = Store.stateFolder
    · simpa [he] using ih
    · simpa [he] using ih

theorem outside_setEntry (it : Item) (es : List (Bytes × Item)) :
    outside (Item.setEntry Store.stateFolder it es) = outside es := by
  unfold outside
  induction es with
  | nil => simp [Item.setEntry]
  | cons e es ih =>
    by_cases he : e.1 = Store.stateFolder
    · simp [Item.setEntry, he]
    · simpa [Item.setEntry, he] using ih

/-- Changes in the state folder leave the project alone. -/
theorem Within.sameOutside (h : d.Within d' (loc ++ [Store.stateFolder])) :
    d.SameOutside d' loc := by
  obtain ⟨f, hf⟩ := h
  intro time es hat
  refine ⟨time, _, ?_, outside_map f es⟩
  rw [hf, Item.at?_change_above, hat]
  rfl

/-- So does creating it. -/
theorem sameOutside_put {it : Item} {now : Int}
    (h : d'.root = d.root.put (loc ++ [Store.stateFolder]) it now) : d.SameOutside d' loc := by
  intro time es hat
  refine ⟨now, _, ?_, outside_setEntry it es⟩
  have hc := Item.at?_change (Item.withEntry Store.stateFolder it now) loc [] d.root
  rw [List.append_nil, hat, Option.bind_some] at hc
  rw [h, Item.put_concat, hc]
  rfl

/-- A project has a folder, and no link stands in the place of its state or in it. -/
structure Ready (d : Disk) (loc : Location) : Prop where
  top : ∃ time es, d.root.at? loc = some (.folder time es)
  folder : ∀ target, d.root.at? (loc ++ [Store.stateFolder]) ≠ some (.link target)
  plain : ∀ name target, d.stored loc name ≠ some (.link target)

/-- No link leads to a file of the state. -/
theorem Ready.linkFree (h : d.Ready loc) (name : Bytes) : d.LinkFree (statePlace loc name) := by
  obtain ⟨time, es, hat⟩ := h.top
  intro pre hpre
  rcases List.prefix_concat_iff.1 hpre with rfl | hpre
  · exact h.plain name
  · rcases List.prefix_concat_iff.1 hpre with rfl | hpre
    · exact h.folder
    · exact LinkFree.of_folder hat pre hpre

theorem Ready.of_linkFree {time : Int} {es : List (Bytes × Item)}
    (hat : d.root.at? loc = some (.folder time es))
    (hf : ∀ name, d.LinkFree (statePlace loc name)) : d.Ready loc := by
  refine ⟨⟨time, es, hat⟩, ?_, fun name => hf name _ List.prefix_rfl⟩
  exact hf "" _ (List.prefix_append _ _)

theorem folder_of_at?_concat {root it : Item} (h : root.at? (loc ++ [name]) = some it) :
    ∃ time es, root.at? loc = some (.folder time es) ∧ es.lookup name = some it := by
  rw [Item.at?_append] at h
  obtain ⟨x, hx, hit⟩ := Option.bind_eq_some_iff.1 h
  cases x with
  | file b time => cases hit
  | link target => cases hit
  | folder time es =>
    refine ⟨time, es, hx, ?_⟩
    rw [Item.at?_cons_folder] at hit
    obtain ⟨y, hy, hyit⟩ := Option.bind_eq_some_iff.1 hit
    rw [Item.at?] at hyit
    cases hyit
    exact hy

theorem Ready.of_holds (h : d.Holds (loc ++ [Store.stateFolder]) view) : d.Ready loc := by
  obtain ⟨time, es, hat, -⟩ := h.folder
  obtain ⟨time', es', htop, -⟩ := folder_of_at?_concat hat
  refine ⟨⟨time', es', htop⟩, ?_, ?_⟩
  · intro target ht
    rw [hat] at ht
    cases ht
  · intro name target
    rw [stored, statePlace, h.at?]
    exact h.plain name target

theorem barrier?_ne_notFound : barrier? loc ≠ some .notFound := by
  unfold barrier? refused?
  split
  · simp
  · split
    · simp
    · split <;> simp

/-- Making sure that the state folder is there. -/
theorem Ready.createFolders (h : d.Ready loc) (hn : ∀ s ∈ loc, IsName s) :
    (∃ d', d.createFolders (pathOf (loc ++ [Store.stateFolder])) = (d', .ok ()) ∧
        d'.Holds (loc ++ [Store.stateFolder]) (d.stored loc) ∧ d.SameOutside d' loc) ∨
      (∃ e, d.createFolders (pathOf (loc ++ [Store.stateFolder])) = (d, .error e)) ∧
        (barrier? (loc ++ [Store.stateFolder]) = none →
          ∃ b time, d.root.at? (loc ++ [Store.stateFolder]) = some (.file b time)) := by
  obtain ⟨time, es, htop⟩ := h.top
  have hname : IsName Store.stateFolder := by decide
  have hall := isName_concat hn hname
  have hat : d.root.at? (loc ++ [Store.stateFolder]) = es.lookup Store.stateFolder := by
    rw [Item.at?_append, htop, Option.bind_some, Item.at?_cons_folder]
    cases es.lookup Store.stateFolder <;> rfl
  have hres : ∀ aim, d.resolve (pathOf (loc ++ [Store.stateFolder])) aim = _ := fun aim =>
    resolve_entry hn hname htop fun target => by rw [← hat]; exact h.folder target
  have hbytes : ((pathOf (loc ++ [Store.stateFolder])).bytes == []) = false := rfl
  unfold Disk.createFolders createChain createFolder create
  rw [hbytes, entry_pathOf (by simp) hall, hres]
  cases hb : barrier? (loc ++ [Store.stateFolder]) with
  | some e =>
    right
    have hfolder : d.hasFolder (pathOf (loc ++ [Store.stateFolder])) = false := by
      unfold hasFolder item find
      rw [hres, hb]
      rfl
    refine ⟨⟨e, ?_⟩, fun hnone => by cases hnone⟩
    have hne : e ≠ .notFound := by
      rintro rfl
      exact barrier?_ne_notFound hb
    cases e <;> simp_all
  | none =>
    have hstored : ∀ m, d.stored loc m = (es.lookup Store.stateFolder).bind (·.at? [m]) := by
      intro m
      rw [stored, statePlace, Item.at?_append, hat]
    have hfolder : d.hasFolder (pathOf (loc ++ [Store.stateFolder])) =
        (es.lookup Store.stateFolder).any Item.isFolder := by
      unfold hasFolder item find
      rw [hres, hb]
      cases es.lookup Store.stateFolder <;> rfl
    cases hes : es.lookup Store.stateFolder with
    | none =>
      refine .inl
        ⟨_, rfl, ⟨⟨d.nowNs, [], ?_, fun m => ?_⟩, fun m target => ?_⟩, sameOutside_put rfl⟩
      · exact Item.at?_put_self htop
      · rw [hstored, hes]
        rfl
      · rw [hstored, hes]
        simp
    | some x =>
      simp only [hfolder, hes, Option.any, Option.elim]
      cases x with
      | file c time' => exact .inr ⟨⟨_, rfl⟩, fun _ => ⟨c, time', hat.trans hes⟩⟩
      | link target => exact absurd (hat.trans hes) (h.folder target)
      | folder time' es' =>
        refine .inl ⟨d, rfl, ⟨⟨time', es', hat.trans hes, fun m => ?_⟩, h.plain⟩, .refl d loc⟩
        rw [hstored, hes, Option.bind_some, Item.at?_cons_folder]
        cases es'.lookup m <;> rfl

/-- What saving a file leaves behind in the state folder. The file holds the bytes if they were
saved, and what it held otherwise. Besides it and the temporary file nothing changes, no link
appears, the state folder does not turn into a file and the temporary file not into a folder. -/
structure SaveEffect (d : Disk) (loc : Location) (name temp : Bytes) (b : Bytes)
    (result : Disk × Except IoError Unit) : Prop where
  ready : result.1.Ready loc
  outside : d.SameOutside result.1 loc
  saved : result.2 = .ok () → result.1.Stores loc name b
  kept : result.2 ≠ .ok () → result.1.stored loc name = d.stored loc name
  others : ∀ m, m ≠ name → m ≠ temp → result.1.stored loc m = d.stored loc m
  place : ∀ c time, result.1.root.at? (loc ++ [Store.stateFolder]) = some (.file c time) →
    d.root.at? (loc ++ [Store.stateFolder]) = some (.file c time)
  temporary : ∀ time es, result.1.stored loc temp = some (.folder time es) →
    d.stored loc temp = some (.folder time es)

theorem Holds.saveEffect {temp : Bytes} {result : Disk × Except IoError Unit}
    (h : result.1.Holds (loc ++ [Store.stateFolder]) view) (houtside : d.SameOutside result.1 loc)
    (hsaved : result.2 = .ok () →
      barrier? (statePlace loc name) = none ∧ ∃ time, view name = some (.file b time))
    (hkept : result.2 ≠ .ok () → view name = d.stored loc name)
    (hothers : ∀ m, m ≠ name → m ≠ temp → view m = d.stored loc m)
    (htemp : ∀ time es, view temp = some (.folder time es) →
      d.stored loc temp = some (.folder time es)) :
    d.SaveEffect loc name temp b result := by
  have hs : ∀ m, result.1.stored loc m = view m := h.at?
  refine ⟨.of_holds h, houtside, ?_, ?_, ?_, ?_, ?_⟩
  · intro hr
    obtain ⟨hshort, hfile⟩ := hsaved hr
    exact ⟨hshort, by rwa [hs]⟩
  · intro hr
    rw [hs]
    exact hkept hr
  · intro m hm hm'
    rw [hs]
    exact hothers m hm hm'
  · intro c time hc
    obtain ⟨_, _, hat, -⟩ := h.folder
    rw [hat] at hc
    cases hc
  · intro time es ht
    rw [hs] at ht
    exact htemp time es ht

/-- A file in the state folder is saved as a whole or left alone. -/
theorem Ready.save_effect {temp : Bytes} (h : d.Ready loc) (hn : ∀ s ∈ loc, IsName s)
    (hname : IsName name) (htemp : IsName temp) (hne : temp ≠ name)
    (ht : temporary (pathOf (statePlace loc name)) = pathOf (statePlace loc temp))
    (refusal : Refusal) (b : Bytes) :
    d.SaveEffect loc name temp b (d.save refusal (pathOf (statePlace loc name)) b) := by
  have hfolder := isName_concat hn (show IsName Store.stateFolder by decide)
  have hsame : ∀ e, d.SaveEffect loc name temp b (d, .error e) := fun e =>
    ⟨h, .refl d loc, nofun, fun _ => rfl, fun _ _ _ => rfl, fun _ _ hc => hc, fun _ _ ht => ht⟩
  unfold save
  rw [ht]
  simp only [statePlace] at ht ⊢
  rw [parent?_pathOf hfolder hname]
  cases refusal (pathOf (loc ++ [Store.stateFolder] ++ [name])) .folder with
  | some e => exact hsame e
  | none =>
    simp only
    rcases h.createFolders hn with ⟨d₁, hd₁, hv₁, ho₁⟩ | ⟨⟨e, he⟩, -⟩
    · rw [hd₁]
      simp only
      cases refusal (pathOf (loc ++ [Store.stateFolder] ++ [name])) .temporary with
      | some e => exact hv₁.saveEffect ho₁ nofun (fun _ => rfl) (fun _ _ _ => rfl) fun _ _ ht => ht
      | none =>
        cases hw : d₁.write (pathOf (loc ++ [Store.stateFolder] ++ [temp])) b with
        | error e =>
          exact hv₁.saveEffect ho₁ nofun (fun _ => rfl) (fun _ _ _ => rfl) fun _ _ ht => ht
        | ok d₂ =>
          obtain ⟨hv₂, hin₂⟩ := hv₁.write hfolder htemp hw
          have ho₂ := ho₁.trans hin₂.sameOutside
          have hkept : ∀ m, m ≠ temp → Function.update (d.stored loc) temp
              (some (.file b d₁.nowNs)) m = d.stored loc m := fun m hm =>
            Function.update_of_ne hm _ _
          have htemporary : ∀ time es, Function.update (d.stored loc) temp
              (some (.file b d₁.nowNs)) temp ≠ some (.folder time es) := by
            rw [Function.update_self]
            exact nofun
          simp only [attempt]
          cases refusal (pathOf (loc ++ [Store.stateFolder] ++ [name])) .target with
          | some e =>
            exact hv₂.saveEffect ho₂ nofun (fun _ => hkept name hne.symm) (fun m _ hm => hkept m hm)
              fun time es ht => absurd ht (htemporary time es)
          | none =>
            cases hr : d₂.rename (pathOf (loc ++ [Store.stateFolder] ++ [temp]))
                (pathOf (loc ++ [Store.stateFolder] ++ [name])) with
            | error e =>
              exact hv₂.saveEffect ho₂ nofun (fun _ => hkept name hne.symm)
                (fun m _ hm => hkept m hm) fun time es ht => absurd ht (htemporary time es)
            | ok d₃ =>
              obtain ⟨it, hit, hshort, hv₃, hin₃⟩ := hv₂.rename hfolder htemp hname hne hr
              rw [Function.update_self] at hit
              cases hit
              refine hv₃.saveEffect (ho₂.trans hin₃.sameOutside)
                (fun _ => ⟨hshort, d₁.nowNs, Function.update_self _ _ _⟩)
                (fun hne => absurd rfl hne) (fun m hm hm' => ?_) fun time es ht => ?_
              · rw [Function.update_of_ne hm, Function.update_of_ne hm', hkept m hm']
              · rw [Function.update_of_ne hne, Function.update_self] at ht
                cases ht
    · rw [he]
      exact hsame e

/-- Nothing stands in the way of a file in the state folder: its path is not too long, and there is
no folder in its place. -/
structure Clear (d : Disk) (loc : Location) (name : Bytes) : Prop where
  short : barrier? (statePlace loc name) = none
  file : ∀ time es, d.stored loc name ≠ some (.folder time es)

/-- Saving puts nothing in the way of a file. -/
theorem SaveEffect.clear {temp other : Bytes} {result : Disk × Except IoError Unit}
    (h : d.SaveEffect loc name temp b result) (hc : d.Clear loc other) :
    result.1.Clear loc other := by
  refine ⟨hc.short, fun time es ht => ?_⟩
  by_cases hname : other = name
  · subst hname
    by_cases hr : result.2 = .ok ()
    · obtain ⟨-, time', hfile⟩ := h.saved hr
      rw [hfile] at ht
      cases ht
    · exact hc.file time es (h.kept hr ▸ ht)
  · by_cases htemp : other = temp
    · subst htemp
      exact hc.file time es (h.temporary time es ht)
    · exact hc.file time es (h.others other hname htemp ▸ ht)

/-- Saving fails if the device refuses to write. -/
theorem save_refused {refusal : Refusal} {p : Path} {e : IoError}
    (h : refusal p .temporary = some e) (d : Disk) (b : Bytes) :
    ∃ e', (d.save refusal p b).2 = .error e' := by
  unfold save
  rw [h]
  simp only [attempt]
  split <;> exact ⟨_, rfl⟩

/-- Saving succeeds if nothing stands in its way and the device does not refuse. -/
theorem Ready.save_ok {temp : Bytes} (h : d.Ready loc) (hn : ∀ s ∈ loc, IsName s)
    (hname : IsName name) (htemp : IsName temp) (hne : temp ≠ name)
    (ht : temporary (pathOf (statePlace loc name)) = pathOf (statePlace loc temp))
    (hshort : barrier? (loc ++ [Store.stateFolder]) = none)
    (hfile : ∀ b time, d.root.at? (loc ++ [Store.stateFolder]) ≠ some (.file b time))
    (hclear : d.Clear loc name) (hclear' : d.Clear loc temp) {refusal : Refusal}
    (hr : ∀ step, refusal (pathOf (statePlace loc name)) step = none) (b : Bytes) :
    (d.save refusal (pathOf (statePlace loc name)) b).2 = .ok () := by
  have hfolder := isName_concat hn (show IsName Store.stateFolder by decide)
  unfold save
  rw [ht, hr, hr, hr]
  simp only [statePlace]
  rw [parent?_pathOf hfolder hname]
  rcases h.createFolders hn with ⟨d₁, hd₁, hv₁, -⟩ | ⟨-, hbad⟩
  · simp only [hd₁]
    obtain ⟨d₂, hd₂⟩ := hv₁.exists_write hfolder htemp hclear'.short hclear'.file b
    have hv₂ := (hv₁.write hfolder htemp hd₂).1
    have hother : ∀ time es, Function.update (d.stored loc) temp (some (.file b d₁.nowNs)) name ≠
        some (.folder time es) := by
      rw [Function.update_of_ne hne.symm]
      exact hclear.file
    obtain ⟨d₃, hd₃⟩ := hv₂.exists_rename hfolder htemp hname hclear'.short hclear.short
      (Function.update_self _ _ _) hother
    simp only [attempt, hd₂, hd₃]
  · obtain ⟨c, time, hat⟩ := hbad hshort
    exact absurd hat (hfile c time)

end Disk

end SignalAtlas
