import Mathlib.Tactic
import SignalAtlas.Proofs.Trees

/-!
# Walks along paths

`Disk.follow` computes where the segments of a path lead. `Disk.Walks` says the same as a relation
between places: one constructor for each thing that a segment can do. Both agree
(`walks_iff_follow`), so that what a changed tree does to a path is proved by induction on a walk:

* `Walks.split`: a walk along a path with a name at its back first walks to a folder;
* `Leads.extend`: from that folder any other name can be looked up instead;
* `Leads.transfer`: a walk to a folder takes the same way in a tree that keeps folders and links.
-/

namespace SignalAtlas

/-- There is a folder at a place. -/
def Item.HasFolder (root : Item) (loc : Location) : Prop :=
  ∃ time es, root.at? loc = some (.folder time es)

namespace Item

variable {root it : Item} {loc : Location} {s : Bytes}

theorem at?_concat {time : Int} {es : List (Bytes × Item)}
    (h : root.at? loc = some (.folder time es)) (s : Bytes) :
    root.at? (loc ++ [s]) = es.lookup s := by
  rw [at?_append, h, Option.bind_some, at?_cons_folder]
  cases es.lookup s <;> rfl

theorem hasFolder_of_concat (h : root.at? (loc ++ [s]) = some it) : root.HasFolder loc := by
  rw [at?_append] at h
  obtain ⟨x, hx, hs⟩ := Option.bind_eq_some_iff.1 h
  cases x with
  | folder time es => exact ⟨time, es, hx⟩
  | file b time => cases hs
  | link p => cases hs

theorem HasFolder.above {q : Location} (h : root.HasFolder loc) (hq : q <+: loc) :
    root.HasFolder q := by
  obtain ⟨rest, rfl⟩ := hq
  obtain ⟨time, es, hat⟩ := h
  rw [at?_append] at hat
  obtain ⟨x, hx, hrest⟩ := Option.bind_eq_some_iff.1 hat
  cases x with
  | folder time' es' => exact ⟨time', es', hx⟩
  | file b t => cases rest <;> cases hrest
  | link p => cases rest <;> cases hrest

theorem HasFolder.dropLast (h : root.HasFolder loc) : root.HasFolder loc.dropLast :=
  h.above (List.dropLast_prefix loc)

end Item

namespace Trail

/-- A trail whose names are entries of the folders that it passes. -/
def Sound (root : Item) : Trail → Prop
  | [] => True
  | e :: t => Sound root t ∧ ∃ time es, item root t = .folder time es ∧ es.lookup e.1 = some e.2

variable {root here : Item} {t : Trail}

theorem Sound.at? (h : Sound root t) : root.at? t.location = some (t.item root) := by
  induction t with
  | nil => rfl
  | cons e t ih =>
    obtain ⟨ht, time, es, hf, he⟩ := h
    have ih := ih ht
    rw [hf] at ih
    rw [Disk.location_cons, Item.at?_concat ih, he]
    rfl

theorem Sound.tail (h : Sound root t) : Sound root t.tail := by
  cases t with
  | nil => exact h
  | cons e t => exact h.1

theorem location_tail (t : Trail) : location t.tail = t.location.dropLast := by
  cases t with
  | nil => rfl
  | cons e t => rw [Disk.location_cons, List.dropLast_concat, List.tail_cons]

theorem Sound.folder {time : Int} {es : List (Bytes × Item)} (h : Sound root t)
    (hf : t.item root = .folder time es) : root.at? t.location = some (.folder time es) := by
  rw [h.at?, hf]

/-- The trail to a place below the end of a sound one is sound. -/
theorem sound_of_walk? {loc : Location} {u : Trail} (ht : Sound root t)
    (h : walk? t (t.item root) loc = some u) : Sound root u ∧ u.location = t.location ++ loc := by
  induction loc generalizing t with
  | nil =>
    cases h
    exact ⟨ht, (List.append_nil _).symm⟩
  | cons name loc ih =>
    cases hf : t.item root with
    | file b time => rw [hf] at h; cases h
    | link p => rw [hf] at h; cases h
    | folder time es =>
      rw [hf, walk?] at h
      cases hx : es.lookup name with
      | none => simp [Item.entries, hx] at h
      | some it =>
        simp only [Item.entries, hx] at h
        have hs : Sound root ((name, it) :: t) := ⟨ht, time, es, hf, hx⟩
        obtain ⟨hu, hloc⟩ := ih hs h
        refine ⟨hu, ?_⟩
        rw [hloc, Disk.location_cons, List.append_assoc]
        rfl

theorem sound_of_top {loc : Location} (h : walk? [] root loc = some t) :
    Sound root t ∧ t.location = loc :=
  sound_of_walk? (t := []) trivial h

/-- There is a trail to every place where something stands. -/
theorem exists_walk? {loc : Location} {it : Item} (h : here.at? loc = some it) (t : Trail) :
    ∃ u, walk? t here loc = some u := by
  induction loc generalizing here t with
  | nil => exact ⟨t, rfl⟩
  | cons name loc ih =>
    cases here with
    | file b time => cases h
    | link p => cases h
    | folder time es =>
      rw [Item.at?_cons_folder] at h
      obtain ⟨x, hx, hrest⟩ := Option.bind_eq_some_iff.1 h
      obtain ⟨u, hu⟩ := ih hrest ((name, x) :: t)
      refine ⟨u, ?_⟩
      rw [walk?]
      simp only [Item.entries, hx, hu]

end Trail

namespace Disk

variable {root : Item} {aim : Aim} {k : Nat} {loc l : Location} {s : Bytes}
  {rest segs : List Bytes} {x : Option Item}

/-- A segment that is taken for the name of an entry, before the given ones: it stands neither for
the folder itself nor for the one above, and is not too long. If a file is to be written, it has no
slashes at its back. -/
structure Names (aim : Aim) (s : Bytes) (rest : List Bytes) : Prop where
  nonempty : s ≠ []
  notHere : s ≠ [dot]
  notUp : s ≠ [dot, dot]
  short : s.length ≤ maxName
  noSlash : aim = .file → rest = [] ∨ ∃ r ∈ rest, r ≠ []

/-- Where segments lead from a place, and what stands there, if at most `k` links are passed. A
segment stays (`.`), goes up (`..`), or is a name: of nothing, if it is the last one; of a link,
which is followed (`jump`) unless it is the last one and the entry is aimed at (`link`); or of a
file or a folder. -/
inductive Walks (root : Item) (aim : Aim) :
    (k : Nat) → Location → List Bytes → Location → Option Item → Prop
  | done {k : Nat} {loc : Location} {it : Item} (h : root.at? loc = some it) :
      Walks root aim k loc [] loc (some it)
  | stay {k : Nat} {loc l : Location} {s : Bytes} {rest : List Bytes} {x : Option Item}
      (hs : s = [] ∨ s = [dot]) (hf : root.HasFolder loc) (w : Walks root aim k loc rest l x) :
      Walks root aim k loc (s :: rest) l x
  | up {k : Nat} {loc l : Location} {rest : List Bytes} {x : Option Item}
      (hf : root.HasFolder loc) (w : Walks root aim k loc.dropLast rest l x) :
      Walks root aim k loc ([dot, dot] :: rest) l x
  | absent {k : Nat} {loc : Location} {s : Bytes} (hs : Names aim s []) (hf : root.HasFolder loc)
      (h : root.at? (loc ++ [s]) = none) : Walks root aim k loc [s] (loc ++ [s]) none
  | link {k : Nat} {loc : Location} {s : Bytes} {target : Path} (hs : Names aim s [])
      (ha : aim = .entry) (h : root.at? (loc ++ [s]) = some (.link target)) :
      Walks root aim k loc [s] (loc ++ [s]) (some (.link target))
  | jump {k : Nat} {loc l : Location} {s : Bytes} {target : Path} {rest : List Bytes}
      {x : Option Item} (hs : Names aim s rest) (ha : rest = [] → aim ≠ .entry)
      (h : root.at? (loc ++ [s]) = some (.link target))
      (w : Walks root aim k (if target.isAbsolute then [] else loc) (steps target ++ rest) l x) :
      Walks root aim (k + 1) loc (s :: rest) l x
  | enter {k : Nat} {loc l : Location} {s : Bytes} {it : Item} {rest : List Bytes}
      {x : Option Item} (hs : Names aim s rest) (h : root.at? (loc ++ [s]) = some it)
      (hit : it.NotLink) (w : Walks root aim k (loc ++ [s]) rest l x) :
      Walks root aim k loc (s :: rest) l x

theorem names_of_tests (hdot : ¬(s == [] || s == [dot]) = true) (hup : ¬(s == [dot, dot]) = true)
    (hslash : ¬(decide (aim = Aim.file) && !rest.isEmpty && rest.all fun r => r == []) = true)
    (hlong : ¬maxName < s.length) : Names aim s rest := by
  simp only [Bool.or_eq_true, beq_iff_eq, not_or] at hdot hup
  refine ⟨hdot.1, hdot.2, hup, by omega, fun ha => ?_⟩
  by_contra hc
  push Not at hc
  apply hslash
  simp only [Bool.and_eq_true, decide_eq_true_eq, Bool.not_eq_true', List.isEmpty_eq_false_iff,
    List.all_eq_true, beq_iff_eq]
  exact ⟨⟨ha, hc.1⟩, hc.2⟩

theorem walks_of_follow {t : Trail} (ht : Trail.Sound root t)
    (h : follow root aim k t segs = .ok (l, x)) : Walks root aim k t.location segs l x := by
  fun_induction follow root aim k t segs with
  | case1 k t =>
    cases h
    exact .done ht.at?
  | case2 k t s rest time es hf hs ih =>
    exact .stay (by simpa using hs) ⟨time, es, ht.folder hf⟩ (ih ht h)
  | case3 k t s rest time es hf hs hup ih =>
    have w := ih ht.tail h
    rw [Trail.location_tail] at w
    rw [eq_of_beq hup]
    exact .up ⟨time, es, ht.folder hf⟩ w
  | case4 => cases h
  | case5 => cases h
  | case6 k t s rest time es hf hs hup hslash hlong hx hr =>
    have hat := ht.folder hf
    have hn := names_of_tests hs hup hslash hlong
    rw [List.isEmpty_iff] at hr
    subst hr
    cases h
    exact .absent hn ⟨time, es, hat⟩ (by rw [Item.at?_concat hat, hx])
  | case7 => cases h
  | case8 k t s rest time es hf hs hup hslash hlong target hx hr =>
    have hat := ht.folder hf
    have hn := names_of_tests hs hup hslash hlong
    simp only [Bool.and_eq_true, List.isEmpty_iff, decide_eq_true_eq] at hr
    obtain ⟨rfl, ha⟩ := hr
    cases h
    exact .link hn ha (by rw [Item.at?_concat hat, hx])
  | case9 => cases h
  | case10 t s rest time es hf hs hup hslash hlong target hx hr k ih =>
    have hat := ht.folder hf
    have hn := names_of_tests hs hup hslash hlong
    refine .jump hn (fun hrest ha => hr (by simp [hrest, ha])) (by rw [Item.at?_concat hat, hx]) ?_
    by_cases hp : target.isAbsolute
    · simp only [hp, if_true] at h ih ⊢
      exact ih trivial h
    · simp only [hp] at h ih ⊢
      exact ih ht h
  | case11 k t s rest time es hf hs hup hslash hlong it hit hx ih =>
    have hat := ht.folder hf
    have hn := names_of_tests hs hup hslash hlong
    have w := ih ⟨ht, time, es, hf, hx⟩ h
    rw [location_cons] at w
    exact .enter hn (by rw [Item.at?_concat hat, hx]) hit w
  | case12 => cases h

/-- A segment that names an entry is looked up. -/
theorem follow_of_names {t : Trail} {time : Int} {es : List (Bytes × Item)}
    (hs : Names aim s rest) (hf : t.item root = .folder time es) :
    follow root aim k t (s :: rest) =
      match es.lookup s with
      | none => if rest.isEmpty then .ok (t.location ++ [s], none) else .error .notFound
      | some (.link target) =>
        if rest.isEmpty && aim = .entry then .ok (t.location ++ [s], some (.link target))
        else
          match k with
          | 0 => .error .tooManyLinks
          | k + 1 =>
            follow root aim k (if target.isAbsolute then [] else t) (steps target ++ rest)
      | some it => follow root aim k ((s, it) :: t) rest := by
  have hdot : (s == [] || s == [dot]) = false := by simp [hs.nonempty, hs.notHere]
  have hup : (s == [dot, dot]) = false := by simp [hs.notUp]
  have hslash : (decide (aim = .file) && !rest.isEmpty && rest.all (· == [])) = false := by
    by_cases ha : aim = .file
    · rcases hs.noSlash ha with rfl | ⟨r, hr, hne⟩
      · simp
      · have hall : rest.all (· == []) = false := by
          rw [List.all_eq_false]
          exact ⟨r, hr, by simpa using hne⟩
        rw [hall, Bool.and_false]
    · simp [ha]
  have hlong : ¬maxName < s.length := by have := hs.short; omega
  rw [follow, hf]
  cases hx : es.lookup s with
  | none => simp only [hx, hdot, hup, hslash, hlong, Bool.false_eq_true, if_false]
  | some it =>
    cases it with
    | file b time => simp only [hx, hdot, hup, hslash, hlong, Bool.false_eq_true, if_false]
    | folder time es => simp only [hx, hdot, hup, hslash, hlong, Bool.false_eq_true, if_false]
    | link target =>
      cases k <;> simp only [hx, hdot, hup, hslash, hlong, Bool.false_eq_true, if_false]

theorem folder_of_hasFolder {t : Trail} (ht : Trail.Sound root t)
    (hf : root.HasFolder t.location) : ∃ time es, t.item root = .folder time es := by
  obtain ⟨time, es, hat⟩ := hf
  rw [ht.at?] at hat
  exact ⟨time, es, Option.some.inj hat⟩

theorem follow_of_walks (w : Walks root aim k loc segs l x) :
    ∀ {t : Trail}, Trail.Sound root t → t.location = loc →
      follow root aim k t segs = .ok (l, x) := by
  induction w with
  | done h =>
    rintro t ht rfl
    rw [ht.at?] at h
    rw [follow, Option.some.inj h]
  | @stay k loc l s rest x hs hf w ih =>
    rintro t ht rfl
    obtain ⟨time, es, hf⟩ := folder_of_hasFolder ht hf
    have hdot : (s == [] || s == [dot]) = true := by simpa using hs
    rw [follow, hf]
    simp only [hdot, if_true]
    exact ih ht rfl
  | up hf w ih =>
    rintro t ht rfl
    obtain ⟨time, es, hf⟩ := folder_of_hasFolder ht hf
    rw [follow, hf]
    exact ih ht.tail (Trail.location_tail t)
  | absent hs hf h =>
    rintro t ht rfl
    obtain ⟨time, es, hf⟩ := folder_of_hasFolder ht hf
    rw [Item.at?_concat (ht.folder hf)] at h
    rw [follow_of_names hs hf, h]
    rfl
  | link hs ha h =>
    rintro t ht rfl
    obtain ⟨time, es, hf⟩ := folder_of_hasFolder ht (Item.hasFolder_of_concat h)
    rw [Item.at?_concat (ht.folder hf)] at h
    rw [follow_of_names hs hf, h]
    simp [ha]
  | @jump k loc l s target rest x hs ha h w ih =>
    rintro t ht rfl
    obtain ⟨time, es, hf⟩ := folder_of_hasFolder ht (Item.hasFolder_of_concat h)
    rw [Item.at?_concat (ht.folder hf)] at h
    have hlast : (rest.isEmpty && decide (aim = .entry)) = false := by
      by_cases hr : rest = []
      · simp [ha hr]
      · simp [hr]
    rw [follow_of_names hs hf, h]
    simp only [hlast, Bool.false_eq_true, if_false]
    by_cases hp : target.isAbsolute
    · simp only [hp, if_true] at ih ⊢
      exact ih (t := []) trivial rfl
    · simp only [hp] at ih ⊢
      exact ih ht rfl
  | @enter k loc l s it rest x hs h hit w ih =>
    rintro t ht rfl
    obtain ⟨time, es, hf⟩ := folder_of_hasFolder ht (Item.hasFolder_of_concat h)
    rw [Item.at?_concat (ht.folder hf)] at h
    rw [follow_of_names hs hf, h]
    have hnext := ih (t := (s, it) :: t) ⟨ht, time, es, hf, h⟩ (location_cons s it t)
    cases it with
    | link target => exact absurd rfl (hit target)
    | file b time => exact hnext
    | folder time es => exact hnext

/-- A walk is what following segments computes. -/
theorem walks_iff_follow {t : Trail} (ht : Trail.Sound root t) :
    Walks root aim k t.location segs l x ↔ follow root aim k t segs = .ok (l, x) :=
  ⟨fun w => follow_of_walks w ht rfl, walks_of_follow ht⟩

/-! ### Parts of walks -/

namespace Walks

theorem hasFolder (w : Walks root aim k loc (s :: rest) l x) : root.HasFolder loc := by
  cases w with
  | stay hs hf w => exact hf
  | up hf w => exact hf
  | absent hs hf h => exact hf
  | link hs ha h => exact Item.hasFolder_of_concat h
  | jump hs ha h w => exact Item.hasFolder_of_concat h
  | enter hs h hit w => exact Item.hasFolder_of_concat h

theorem exists_start (w : Walks root aim k loc segs l x) : ∃ it, root.at? loc = some it := by
  cases segs with
  | nil =>
    cases w with
    | done h => exact ⟨_, h⟩
  | cons s rest =>
    obtain ⟨time, es, h⟩ := w.hasFolder
    exact ⟨_, h⟩

/-- A walk ends at a file. -/
theorem of_file {b : Bytes} {time : Int} (w : Walks root aim k loc segs l x)
    (h : root.at? loc = some (.file b time)) : segs = [] ∧ l = loc ∧ x = some (.file b time) := by
  cases segs with
  | nil =>
    cases w with
    | done h' =>
      rw [h] at h'
      exact ⟨rfl, rfl, h'.symm⟩
  | cons s rest =>
    obtain ⟨time', es, h'⟩ := w.hasFolder
    rw [h] at h'
    cases h'

theorem of_stay (w : Walks root aim k loc (s :: rest) l x) (hs : s = [] ∨ s = [dot]) :
    Walks root aim k loc rest l x := by
  have hname : ∀ {r : List Bytes}, ¬Names aim s r := fun h =>
    hs.elim h.nonempty h.notHere
  cases w with
  | stay _ _ w => exact w
  | up _ _ => simp at hs
  | absent h _ _ => exact absurd h hname
  | link h _ _ => exact absurd h hname
  | jump h _ _ _ => exact absurd h hname
  | enter h _ _ _ => exact absurd h hname

theorem of_up (w : Walks root aim k loc ([dot, dot] :: rest) l x) :
    Walks root aim k loc.dropLast rest l x := by
  cases w with
  | stay hs _ _ => simp at hs
  | up _ w => exact w
  | absent h _ _ => exact absurd rfl h.notUp
  | link h _ _ => exact absurd rfl h.notUp
  | jump h _ _ _ => exact absurd rfl h.notUp
  | enter h _ _ _ => exact absurd rfl h.notUp

/-- A name that leads to something is that of a link, a file or a folder. -/
theorem of_name {it : Item} (w : Walks root .item k loc (s :: rest) l (some it)) (hne : s ≠ [])
    (hhere : s ≠ [dot]) (hup : s ≠ [dot, dot]) :
    (∃ k' target, k = k' + 1 ∧ root.at? (loc ++ [s]) = some (.link target) ∧
      Walks root .item k' (if target.isAbsolute then [] else loc) (steps target ++ rest) l
        (some it)) ∨
    ∃ x : Item, x.NotLink ∧ root.at? (loc ++ [s]) = some x ∧
      Walks root .item k (loc ++ [s]) rest l (some it) := by
  cases w with
  | stay hs _ _ => exact absurd hs (by simp [hne, hhere])
  | up _ _ => exact absurd rfl hup
  | link _ ha _ => cases ha
  | jump _ _ h w => exact .inl ⟨_, _, rfl, h, w⟩
  | enter _ h hit w => exact .inr ⟨_, hit, h, w⟩

/-- A walk ends in one way only. -/
theorem unique {l' : Location} {x' : Option Item} (w : Walks root aim k loc segs l x)
    (w' : Walks root aim k loc segs l' x') : l' = l ∧ x' = x := by
  obtain ⟨it, hit⟩ := w.exists_start
  obtain ⟨t, ht⟩ := Trail.exists_walk? hit []
  obtain ⟨hsound, hloc⟩ := Trail.sound_of_top ht
  have h := (follow_of_walks w' hsound hloc).symm.trans (follow_of_walks w hsound hloc)
  simpa using h

/-- What a walk finds stands at the place where it ends; if nothing does, there is a folder for
it. -/
theorem landing (w : Walks root aim k loc segs l x) :
    root.at? l = x ∧ (x = none → ∃ front s, l = front ++ [s] ∧ root.HasFolder front) := by
  induction w with
  | done h => exact ⟨h, fun hx => by cases hx⟩
  | stay _ _ _ ih => exact ih
  | up _ _ ih => exact ih
  | absent _ hf h => exact ⟨h, fun _ => ⟨_, _, rfl, hf⟩⟩
  | link _ _ h => exact ⟨h, fun hx => by cases hx⟩
  | jump _ _ _ _ ih => exact ih
  | enter _ _ _ _ ih => exact ih

/-- A walk that follows all links does not end at one. -/
theorem notLink {it : Item} (w : Walks root aim k loc segs l (some it)) (ha : aim ≠ .entry)
    (hf : root.HasFolder loc) : it.NotLink := by
  generalize hx : some it = x at w
  induction w with
  | done h =>
    obtain ⟨time, es, hat⟩ := hf
    rw [h, ← hx] at hat
    cases hat
    exact Item.notLink_folder time es
  | stay _ _ _ ih => exact ih hf hx
  | up hf _ ih => exact ih hf.dropLast hx
  | absent _ _ _ => cases hx
  | link _ he _ => exact absurd he ha
  | jump _ _ h _ ih =>
    refine ih ?_ hx
    split
    · exact hf.above List.nil_prefix
    · exact hf
  | @enter k loc l s x rest y _ h hit w ih =>
    cases x with
    | link p => exact absurd rfl (hit p)
    | folder time es => exact ih ⟨time, es, h⟩ hx
    | file b time =>
      obtain ⟨-, -, hfile⟩ := w.of_file h
      rw [← hx] at hfile
      cases hfile
      exact Item.notLink_file b time

end Walks

theorem Names.retarget {aim' : Aim} {rest' : List Bytes} (h : Names aim s rest)
    (hslash : aim' = .file → rest' = [] ∨ ∃ r ∈ rest', r ≠ []) : Names aim' s rest' :=
  ⟨h.nonempty, h.notHere, h.notUp, h.short, hslash⟩

/-- A walk that does not stop at a link finds the item that the path leads to. -/
theorem Walks.toItem (w : Walks root aim k loc segs l x) (hx : ∀ target, x ≠ some (.link target)) :
    Walks root .item k loc segs l x := by
  induction w with
  | done h => exact .done h
  | stay hs hf w ih => exact .stay hs hf (ih hx)
  | up hf w ih => exact .up hf (ih hx)
  | absent hs hf h => exact .absent (hs.retarget fun he => by cases he) hf h
  | link hs ha h => exact absurd rfl (hx _)
  | jump hs ha h w ih =>
    exact .jump (hs.retarget fun he => by cases he) (fun _ he => by cases he) h (ih hx)
  | enter hs h hit w ih => exact .enter (hs.retarget fun he => by cases he) h hit (ih hx)

/-- The last name of a path is looked up, and followed if it is that of a link. -/
theorem Walks.of_last (w : Walks root aim k loc [s] l x) (hs : IsName s) :
    Names aim s [] ∧ (l = loc ++ [s] ∨ ∃ k' target, root.at? (loc ++ [s]) = some (.link target) ∧
      Walks root aim k' (if target.isAbsolute then [] else loc) (steps target) l x) := by
  cases w with
  | stay h _ _ => exact absurd h (by simp [hs.1, hs.2.1])
  | up _ _ => exact absurd rfl hs.2.2.1
  | absent h _ _ => exact ⟨h, .inl rfl⟩
  | link h _ _ => exact ⟨h, .inl rfl⟩
  | jump h _ hat w =>
    rw [List.append_nil] at w
    exact ⟨h, .inr ⟨_, _, hat, w⟩⟩
  | enter h _ _ w =>
    cases w with
    | done _ => exact ⟨h, .inl rfl⟩

/-- Segments lead from a place to a folder, along all links. -/
def Leads (root : Item) (k : Nat) (loc : Location) (segs : List Bytes) (l : Location) : Prop :=
  ∃ time es, Walks root .item k loc segs l (some (.folder time es))

theorem leads_nil (h : root.HasFolder loc) : Leads root k loc [] loc := by
  obtain ⟨time, es, hat⟩ := h
  exact ⟨time, es, .done hat⟩

theorem Leads.hasFolder (h : Leads root k loc segs l) : root.HasFolder l := by
  obtain ⟨time, es, w⟩ := h
  exact ⟨time, es, w.landing.1⟩

/-- A walk along segments before another one leads to a folder first. -/
theorem Walks.split (w : Walks root aim k loc segs l x) :
    ∀ {front : List Bytes}, segs = front ++ [s] →
      ∃ k' mid, Leads root k loc front mid ∧ Walks root aim k' mid [s] l x := by
  have hlast : ∀ {k loc segs}, Walks root aim k loc segs l x → segs = [] ++ [s] →
      ∃ k' mid, Leads root k loc [] mid ∧ Walks root aim k' mid [s] l x := by
    rintro k loc _ w rfl
    exact ⟨k, loc, leads_nil w.hasFolder, w⟩
  induction w with
  | done h =>
    intro front hsegs
    simp at hsegs
  | stay hs' hf w ih =>
    rintro (_ | ⟨a, front⟩) hsegs
    · exact hlast (.stay hs' hf w) hsegs
    · obtain ⟨rfl, rfl⟩ := List.cons.inj hsegs
      obtain ⟨k', mid, ⟨time, es, w'⟩, hmid⟩ := ih hlast rfl
      exact ⟨k', mid, ⟨time, es, .stay hs' hf w'⟩, hmid⟩
  | up hf w ih =>
    rintro (_ | ⟨a, front⟩) hsegs
    · exact hlast (.up hf w) hsegs
    · obtain ⟨rfl, rfl⟩ := List.cons.inj hsegs
      obtain ⟨k', mid, ⟨time, es, w'⟩, hmid⟩ := ih hlast rfl
      exact ⟨k', mid, ⟨time, es, .up hf w'⟩, hmid⟩
  | absent hs' hf h =>
    rintro (_ | ⟨a, front⟩) hsegs
    · exact hlast (.absent hs' hf h) hsegs
    · simp at hsegs
  | link hs' ha h =>
    rintro (_ | ⟨a, front⟩) hsegs
    · exact hlast (.link hs' ha h) hsegs
    · simp at hsegs
  | jump hs' ha h w ih =>
    rintro (_ | ⟨a, front⟩) hsegs
    · exact hlast (.jump hs' ha h w) hsegs
    · obtain ⟨rfl, rfl⟩ := List.cons.inj hsegs
      obtain ⟨k', mid, ⟨time, es, w'⟩, hmid⟩ := ih hlast (List.append_assoc _ _ _).symm
      have hs'' : Names .item _ front := hs'.retarget fun he => by cases he
      exact ⟨k', mid, ⟨time, es, .jump hs'' (fun _ he => by cases he) h w'⟩, hmid⟩
  | enter hs' h hit w ih =>
    rintro (_ | ⟨a, front⟩) hsegs
    · exact hlast (.enter hs' h hit w) hsegs
    · obtain ⟨rfl, rfl⟩ := List.cons.inj hsegs
      obtain ⟨k', mid, ⟨time, es, w'⟩, hmid⟩ := ih hlast rfl
      have hs'' : Names .item _ front := hs'.retarget fun he => by cases he
      exact ⟨k', mid, ⟨time, es, .enter hs'' h hit w'⟩, hmid⟩

/-- A name is looked up in the folder that the segments before it lead to. -/
theorem Leads.extend {front : List Bytes} (h : Leads root k loc front l) (hs : Names aim s [])
    (hlink : ∀ target, root.at? (l ++ [s]) = some (.link target) → aim = .entry) :
    Walks root aim k loc (front ++ [s]) (l ++ [s]) (root.at? (l ++ [s])) := by
  obtain ⟨time, es, w⟩ := h
  have hopen : ∀ {rest : List Bytes}, rest ++ [s] = [] ∨ ∃ r ∈ rest ++ [s], r ≠ [] :=
    .inr ⟨s, by simp, hs.nonempty⟩
  generalize hx : some (Item.folder time es) = x at w
  induction w with
  | @done k loc it h =>
    have hf : root.HasFolder loc := ⟨time, es, by rw [h, hx]⟩
    rw [List.nil_append]
    cases hat : root.at? (loc ++ [s]) with
    | none => exact .absent hs hf hat
    | some it =>
      cases it with
      | link target => exact .link hs (hlink target hat) hat
      | file b t => exact .enter hs hat (Item.notLink_file b t) (.done hat)
      | folder t es => exact .enter hs hat (Item.notLink_folder t es) (.done hat)
  | stay hs' hf w ih => exact .stay hs' hf (ih hlink hx)
  | up hf w ih => exact .up hf (ih hlink hx)
  | absent hs' hf h => cases hx
  | link hs' ha h => cases ha
  | jump hs' ha h w ih =>
    have w' := ih hlink hx
    rw [List.append_assoc] at w'
    exact .jump (hs'.retarget fun _ => hopen) (fun he => by simp at he) h w'
  | enter hs' h hit w ih => exact .enter (hs'.retarget fun _ => hopen) h hit (ih hlink hx)

/-- Segments lead to the same folder in a tree that keeps all folders and links. -/
theorem Leads.transfer {root' : Item} (h : Leads root k loc segs l)
    (hfolder : ∀ q, root.HasFolder q → root'.HasFolder q)
    (hlink : ∀ q target, root.at? q = some (.link target) → root'.at? q = some (.link target)) :
    Leads root' k loc segs l := by
  obtain ⟨time, es, w⟩ := h
  generalize hx : some (Item.folder time es) = x at w
  induction w with
  | @done k loc it h => exact leads_nil (hfolder loc ⟨time, es, by rw [h, hx]⟩)
  | stay hs hf w ih =>
    obtain ⟨time', es', w'⟩ := ih hx
    exact ⟨time', es', .stay hs (hfolder _ hf) w'⟩
  | up hf w ih =>
    obtain ⟨time', es', w'⟩ := ih hx
    exact ⟨time', es', .up (hfolder _ hf) w'⟩
  | absent hs hf h => cases hx
  | link hs ha h => cases ha
  | jump hs ha h w ih =>
    obtain ⟨time', es', w'⟩ := ih hx
    exact ⟨time', es', .jump hs ha (hlink _ _ h) w'⟩
  | @enter k loc l s it rest x hs h hit w ih =>
    obtain ⟨time', es', w'⟩ := ih hx
    cases it with
    | link target => exact absurd rfl (hit target)
    | file b t =>
      obtain ⟨-, -, hfile⟩ := w.of_file h
      rw [← hx] at hfile
      cases hfile
    | folder t es =>
      obtain ⟨t', es'', hat⟩ := hfolder _ ⟨t, es, h⟩
      exact ⟨time', es', .enter hs hat (Item.notLink_folder t' es'') w'⟩

/-! ### Paths -/

variable {d : Disk} {p : Path}

/-- The place at which a path starts. -/
def startOf (d : Disk) (p : Path) : Location := if p.isAbsolute then [] else d.workingFolder

theorem resolve_eq_ok_iff : d.resolve p aim = .ok (l, x) ↔
    refused? p = none ∧ p.bytes ≠ [] ∧ Walks d.root aim maxLinks (d.startOf p) (steps p) l x := by
  have hstart : (if p.isAbsolute then [] else d.workingFolder) = d.startOf p := rfl
  unfold resolve
  cases hr : refused? p with
  | some e => simp
  | none =>
    have hnul := contains_nul_of_refused? hr
    by_cases ht : p.bytes = []
    · simp [walk, ht]
    · simp only [walk, hnul, Bool.false_eq_true, if_false, beq_iff_eq, ht, hstart, ne_eq,
        not_false_eq_true, true_and]
      constructor
      · intro h
        cases hw : Trail.walk? [] d.root (d.startOf p) with
        | none => rw [hw] at h; cases h
        | some t =>
          rw [hw] at h
          obtain ⟨hsound, hloc⟩ := Trail.sound_of_top hw
          rw [← hloc]
          exact walks_of_follow hsound h
      · intro w
        obtain ⟨it, hit⟩ := w.exists_start
        obtain ⟨t, hw⟩ := Trail.exists_walk? hit []
        obtain ⟨hsound, hloc⟩ := Trail.sound_of_top hw
        rw [hw]
        exact follow_of_walks w hsound hloc

theorem item_eq_ok_iff {it : Item} :
    d.item p = .ok it ↔ ∃ l, d.resolve p .item = .ok (l, some it) := by
  unfold item find existing
  rcases d.resolve p .item with e | ⟨l, _ | y⟩
  · simp [Except.map]
  · simp [Except.map]
  · simp [Except.map]

end Disk

end SignalAtlas
