import Mathlib.Tactic
import SignalAtlas.Proofs.Temporaries
import SignalAtlas.Proofs.Walks

/-!
# Overwriting a file

A file is saved by writing a temporary file beside it, which is then moved to its place. Links may
stand at both places. Then writing goes to where the link leads, and the link is what is moved.

The main results are:

* `Disk.save_replaces`: what a save that succeeds has done to the tree;
* `Disk.read_save`: after a save that succeeds the path of the file leads to the contents that were
  saved, or nowhere, and the latter only if one of the two places held a link.

Both paths walk to one folder, since they differ in the last name only. `Moved.walk_on` compares a
walk before the save with a walk after it: they part at the moved entry if anywhere.
-/

namespace SignalAtlas

/-! ### Changes of one entry -/

namespace Item

variable {root root' it : Item} {loc q : Location} {name : Bytes} {now : Int}

/-- What a path passes in the same way: the same item, or two folders. -/
def Alike (x y : Option Item) : Prop :=
  x = y ∨ (∃ time es, x = some (.folder time es)) ∧ ∃ time es, y = some (.folder time es)

theorem Alike.trans {x y z : Option Item} (h : Alike x y) (h' : Alike y z) : Alike x z := by
  rcases h with rfl | ⟨hx, hy⟩
  · exact h'
  · rcases h' with rfl | ⟨-, hz⟩
    · exact .inr ⟨hx, hy⟩
    · exact .inr ⟨hx, hz⟩

theorem Alike.eq_of_not_folder (h : Alike (root.at? q) (root'.at? q)) (hq : ¬root.HasFolder q) :
    root'.at? q = root.at? q := by
  rcases h with h | ⟨hx, -⟩
  · exact h.symm
  · exact absurd hx hq

theorem not_hasFolder {it : Item} (hat : root.at? q = some it) (hit : it.isFolder = false) :
    ¬root.HasFolder q := by
  rintro ⟨time, es, hf⟩
  rw [hat] at hf
  cases hf
  cases hit

theorem Alike.hasFolder_iff (h : Alike (root.at? q) (root'.at? q)) :
    root.HasFolder q ↔ root'.HasFolder q := by
  rcases h with h | ⟨hx, hy⟩
  · unfold HasFolder
    rw [h]
  · exact ⟨fun _ => hy, fun _ => hx⟩

/-- A change of a folder that touches the entry of one name only. -/
def OnlyAt (name : Bytes) (f : Item → Item) : Prop :=
  ∀ time es, ∃ time' es', f (.folder time es) = .folder time' es' ∧
    ∀ other, other ≠ name → es'.lookup other = es.lookup other

theorem onlyAt_withEntry : OnlyAt name (withEntry name it now) := by
  intro time es
  refine ⟨now, setEntry name it es, rfl, fun other hne => ?_⟩
  rw [lookup_setEntry, if_neg hne]

theorem onlyAt_withoutEntry : OnlyAt name (withoutEntry name now) := by
  intro time es
  refine ⟨now, _, rfl, fun other hne => ?_⟩
  rw [lookup_filter_ne, if_neg hne]

theorem onlyAt_change (f : Item → Item) : OnlyAt name (change f [name]) := by
  intro time es
  refine ⟨time, _, rfl, fun other hne => ?_⟩
  rw [lookup_map, if_neg hne]

/-- A change of one entry shows only there and below. -/
theorem alike_change {f : Item → Item} (hf : OnlyAt name f) (h : root.HasFolder loc)
    (hq : ¬loc ++ [name] <+: q) : Alike (root.at? q) ((change f loc root).at? q) := by
  obtain ⟨time, es, hat⟩ := h
  induction loc generalizing root q with
  | nil =>
    cases hat
    obtain ⟨time', es', hfolder, hlookup⟩ := hf time es
    rw [change, hfolder]
    cases q with
    | nil => exact .inr ⟨⟨_, _, rfl⟩, ⟨_, _, rfl⟩⟩
    | cons m r =>
      have hne : m ≠ name := by
        rintro rfl
        exact hq (by simp)
      rw [at?_cons_folder, at?_cons_folder, hlookup m hne]
      exact .inl rfl
  | cons a loc ih =>
    cases root with
    | file b t => cases hat
    | link p => cases hat
    | folder t es₀ =>
      rw [change]
      cases q with
      | nil => exact .inr ⟨⟨_, _, rfl⟩, ⟨_, _, rfl⟩⟩
      | cons m r =>
        rw [at?_cons_folder, at?_cons_folder, lookup_map]
        by_cases hm : m = a
        · subst hm
          rw [at?_cons_folder] at hat
          obtain ⟨x, hx, hrest⟩ := Option.bind_eq_some_iff.1 hat
          rw [if_pos rfl, hx]
          exact ih (fun hp => hq (by simpa using hp)) hrest
        · rw [if_neg hm]
          exact .inl rfl

theorem alike_put (h : root.HasFolder loc) (hq : ¬loc ++ [name] <+: q) :
    Alike (root.at? q) ((root.put (loc ++ [name]) it now).at? q) := by
  rw [put_concat]
  exact alike_change onlyAt_withEntry h hq

theorem alike_drop (h : root.HasFolder loc) (hq : ¬loc ++ [name] <+: q) :
    Alike (root.at? q) ((root.drop (loc ++ [name]) now).at? q) := by
  rw [drop_concat]
  exact alike_change onlyAt_withoutEntry h hq

theorem at?_drop_self (h : root.HasFolder loc) :
    (root.drop (loc ++ [name]) now).at? (loc ++ [name]) = none := by
  obtain ⟨time, es, hat⟩ := h
  rw [drop_concat, at?_change, hat, Option.bind_some, withoutEntry, at?_cons_folder,
    lookup_filter_ne, if_pos rfl]
  rfl

/-- What stands below a place stands in a folder. -/
theorem eq_of_at?_of_prefix (hc : ¬root.HasFolder loc) (hp : loc <+: q)
    (hq : root.at? q ≠ none) : q = loc := by
  obtain ⟨rest, rfl⟩ := hp
  cases rest with
  | nil => rw [List.append_nil]
  | cons s rest =>
    exfalso
    rw [at?_append] at hq
    cases hx : root.at? loc with
    | none => rw [hx] at hq; exact hq rfl
    | some x =>
      rw [hx] at hq
      cases x with
      | folder time es => exact hc ⟨time, es, hx⟩
      | file b t => exact hq rfl
      | link p => exact hq rfl

end Item

namespace Disk

/-! ### Trees with a moved entry -/

/-- A tree in which the entry of a folder for one name has taken the place of that for another, and
contents of files have changed. Neither entry is a folder, and everything else is still there. -/
structure Moved (root root' : Item) (mid : Location) (s s' : Bytes) : Prop where
  folders : ∀ q, root.HasFolder q → root'.HasFolder q
  links : ∀ q target, q ≠ mid ++ [s] → q ≠ mid ++ [s'] → root.at? q = some (.link target) →
    root'.at? q = some (.link target)
  files : ∀ q b time, q ≠ mid ++ [s] → q ≠ mid ++ [s'] → root.at? q = some (.file b time) →
    ∃ b' time', root'.at? q = some (.file b' time')
  target : ¬root.HasFolder (mid ++ [s])
  source : ¬root.HasFolder (mid ++ [s'])
  gone : root'.at? (mid ++ [s']) = none

variable {root root' : Item} {mid loc T l : Location} {s s' : Bytes} {aim : Aim} {k K : Nat}
  {segs rest : List Bytes} {y : Option Item} {x : Item}

/-- A name is looked up where the moved entry is now, or in neither of its places. -/
theorem Moved.elsewhere (h : Moved root root' mid s s') {good : Item → Prop} {n : Bytes}
    (hgood : ∀ rest l x, Walks root' .item k mid (s :: rest) l (some x) → good x)
    (hn : Names aim n segs) (w : Walks root' .item k loc (n :: rest) l (some x)) :
    good x ∨ loc ++ [n] ≠ mid ++ [s] ∧ loc ++ [n] ≠ mid ++ [s'] := by
  by_cases hc : loc ++ [n] = mid ++ [s]
  · obtain ⟨rfl, hlast⟩ := List.append_inj' hc rfl
    cases hlast
    exact .inl (hgood _ _ _ w)
  · refine .inr ⟨hc, fun he => ?_⟩
    have hgone := h.gone
    rw [← he] at hgone
    rcases w.of_name hn.nonempty hn.notHere hn.notUp with ⟨_, _, -, hat, -⟩ | ⟨_, -, hat, -⟩
    · rw [hgone] at hat
      cases hat
    · rw [hgone] at hat
      cases hat

/-- A walk in the tree before a move tells where a walk in the tree after it goes, unless that one
meets the moved entry. -/
theorem Moved.walk_on (h : Moved root root' mid s s') {good : Item → Prop}
    (hgood : ∀ k' ≤ k, ∀ rest l x, Walks root' .item k' mid (s :: rest) l (some x) → good x)
    (w : Walks root aim K loc segs T y) (ha : aim ≠ .entry)
    (hT : y = none → T ≠ mid ++ [s] → T ≠ mid ++ [s'] → ∃ b time, root'.at? T = some (.file b time))
    (hs : loc ≠ mid ++ [s]) (hs' : loc ≠ mid ++ [s'])
    (w' : Walks root' .item k loc (segs ++ rest) l (some x)) :
    good x ∨ T ≠ mid ++ [s] ∧ T ≠ mid ++ [s'] ∧
      ∃ k' ≤ k, Walks root' .item k' T rest l (some x) := by
  induction w generalizing k with
  | done hat => exact .inr ⟨hs, hs', k, le_rfl, w'⟩
  | stay hstay hf w ih => exact ih hgood hT hs hs' (w'.of_stay hstay)
  | @up K loc T tail y hf w ih =>
    have hne : ∀ {q : Location} {n : Bytes}, ¬root.HasFolder (q ++ [n]) →
        loc.dropLast ≠ q ++ [n] := by
      rintro q n hq hc
      exact hq (hc ▸ hf.dropLast)
    exact ih hgood hT (hne h.target) (hne h.source) w'.of_up
  | @absent K loc n hn hf hat =>
    rcases h.elsewhere (hgood k le_rfl) hn w' with hx | ⟨hc, he⟩
    · exact .inl hx
    · obtain ⟨b, time, hfile⟩ := hT rfl hc he
      rcases w'.of_name hn.nonempty hn.notHere hn.notUp with ⟨_, _, -, hat', -⟩ | ⟨_, -, -, w'⟩
      · rw [hfile] at hat'
        cases hat'
      · exact .inr ⟨hc, he, k, le_rfl, w'⟩
  | link hn he hat => exact absurd he ha
  | @jump K loc T n target tail y hn hlast hat w ih =>
    rw [List.cons_append] at w'
    rcases h.elsewhere (hgood k le_rfl) hn w' with hx | ⟨hc, he⟩
    · exact .inl hx
    · have hlink := h.links _ _ hc he hat
      rcases w'.of_name hn.nonempty hn.notHere hn.notUp with
        ⟨k', target', rfl, hat', w'⟩ | ⟨_, hit, hat', -⟩
      · rw [hlink] at hat'
        cases hat'
        have hbase : ∀ n, (if target.isAbsolute then [] else loc) = mid ++ [n] →
            loc = mid ++ [n] := by
          intro n hn
          split at hn
          · simp at hn
          · exact hn
        rw [← List.append_assoc] at w'
        rcases ih (fun k'' hk => hgood k'' (by omega)) hT (fun hn => hs (hbase s hn))
          (fun hn => hs' (hbase s' hn)) w' with hx | ⟨hc, he, k'', hk, w''⟩
        · exact .inl hx
        · exact .inr ⟨hc, he, k'', by omega, w''⟩
      · rw [hlink] at hat'
        cases hat'
        exact absurd rfl (hit target)
  | @enter K loc T n it tail y hn hat hit w ih =>
    rcases h.elsewhere (hgood k le_rfl) hn w' with hx | ⟨hc, he⟩
    · exact .inl hx
    · have hkind : ∀ target, root'.at? (loc ++ [n]) ≠ some (.link target) := by
        intro target hlink
        cases it with
        | link p => exact hit p rfl
        | file b time =>
          obtain ⟨b', time', hfile⟩ := h.files _ b time hc he hat
          rw [hfile] at hlink
          cases hlink
        | folder time es =>
          obtain ⟨time', es', hfolder⟩ := h.folders _ ⟨time, es, hat⟩
          rw [hfolder] at hlink
          cases hlink
      rcases w'.of_name hn.nonempty hn.notHere hn.notUp with ⟨_, target, -, hat', -⟩ | ⟨_, -, -, w'⟩
      · exact absurd hat' (hkind target)
      · exact ih hgood hT hc he w'

/-- A link that was moved leads to the file that it led to, if to anything. -/
theorem Moved.file_of_link (h : Moved root root' mid s s') {target : Path} {b : Bytes} {time : Int}
    (hs : Names aim s []) (hlink : root'.at? (mid ++ [s]) = some (.link target))
    (w : Walks root .file K (if target.isAbsolute then [] else mid) (steps target) T y)
    (hT : T ≠ mid ++ [s] → T ≠ mid ++ [s'] → root'.at? T = some (.file b time))
    (w' : Walks root' .item k mid (s :: rest) l (some x)) : x = .file b time := by
  -- each time the walk meets the link again it has one link less to go
  induction k using Nat.strong_induction_on generalizing rest l x with
  | _ k ih =>
    rcases w'.of_name hs.nonempty hs.notHere hs.notUp with
      ⟨k', target', rfl, hat, w'⟩ | ⟨_, hit, hat, -⟩
    · rw [hlink] at hat
      cases hat
      have hbase : ∀ n, (if target.isAbsolute then [] else mid) ≠ mid ++ [n] := by
        intro n
        split <;> simp
      have hgood : ∀ k'' ≤ k', ∀ rest l x, Walks root' .item k'' mid (s :: rest) l (some x) →
          x = .file b time := fun k'' hk _ _ _ => ih k'' (by omega)
      rcases h.walk_on hgood w (fun ha => by cases ha) (fun _ hc he => ⟨b, time, hT hc he⟩)
        (hbase s) (hbase s') w' with hx | ⟨hc, he, k'', -, w''⟩
      · exact hx
      · obtain ⟨-, -, hx⟩ := w''.of_file (hT hc he)
        exact Option.some.inj hx
    · rw [hlink] at hat
      cases hat
      exact absurd rfl (hit target)

/-! ### Saving -/

variable {d d' : Disk} {p q : Path} {b : Bytes}

theorem steps_ne_nil (p : Path) : steps p ≠ [] := by
  obtain ⟨l, hl, hno, rfl⟩ := p.exists_segments
  obtain ⟨front, s, rfl⟩ := (List.eq_nil_or_concat' l).resolve_left hl
  rw [Path.steps_ofSegments hno]
  simp

/-- A tree in which contents have been written at a place that was no folder and no link. Everything
else is as it was. -/
structure Written (root root' : Item) (loc : Location) (b : Bytes) : Prop where
  notFolder : ¬root.HasFolder loc
  notLink : ∀ target, root.at? loc ≠ some (.link target)
  file : ∃ time, root'.at? loc = some (.file b time)
  alike : ∀ r, ¬loc <+: r → Item.Alike (root.at? r) (root'.at? r)

namespace Written

variable {r : Location} {target : Path}

theorem kept (h : Written root root' loc b) (hr : r ≠ loc) (hat : root.at? r ≠ none) :
    Item.Alike (root.at? r) (root'.at? r) :=
  h.alike r fun hp => hr (Item.eq_of_at?_of_prefix h.notFolder hp hat)

theorem hasFolder_iff (h : Written root root' loc b) : root'.HasFolder r ↔ root.HasFolder r := by
  obtain ⟨time, hfile⟩ := h.file
  have hnot : ¬root'.HasFolder loc := by
    rintro ⟨_, _, hat⟩
    rw [hfile] at hat
    cases hat
  by_cases hp : loc <+: r
  · exact ⟨fun hr => absurd (hr.above hp) hnot, fun hr => absurd (hr.above hp) h.notFolder⟩
  · exact (h.alike r hp).hasFolder_iff.symm

theorem link_iff (h : Written root root' loc b) :
    root'.at? r = some (.link target) ↔ root.at? r = some (.link target) := by
  obtain ⟨time, hfile⟩ := h.file
  have hnot : ¬root'.HasFolder loc := fun hf => h.notFolder (h.hasFolder_iff.1 hf)
  by_cases hr : r = loc
  · subst hr
    simp [hfile, h.notLink target]
  · by_cases hp : loc <+: r
    · constructor
      · intro hat
        exact absurd (Item.eq_of_at?_of_prefix hnot hp (by simp [hat])) hr
      · intro hat
        exact absurd (Item.eq_of_at?_of_prefix h.notFolder hp (by simp [hat])) hr
    · rcases h.alike r hp with he | ⟨⟨_, _, hx⟩, _, _, hy⟩
      · rw [he]
      · simp [hx, hy]

theorem leads_iff (h : Written root root' loc b) {front : List Bytes} :
    Leads root' k r front mid ↔ Leads root k r front mid :=
  ⟨fun hl => hl.transfer (fun _ => h.hasFolder_iff.1) fun _ _ => h.link_iff.1,
    fun hl => hl.transfer (fun _ => h.hasFolder_iff.2) fun _ _ => h.link_iff.2⟩

end Written

theorem hasFolder_start {y : Option Item} (h : d.resolve q aim = .ok (l, y)) :
    d.root.HasFolder (d.startOf q) := by
  obtain ⟨-, -, w⟩ := resolve_eq_ok_iff.1 h
  obtain ⟨s, rest, hs⟩ := List.exists_cons_of_ne_nil (steps_ne_nil q)
  rw [hs] at w
  exact w.hasFolder

/-- Writing a file puts the contents at the place that the path leads to. -/
theorem written_of_write (h : d.write q b = .ok d') :
    d'.workingFolder = d.workingFolder ∧
      ∃ l y, d.resolve q .file = .ok (l, y) ∧ Written d.root d'.root l b := by
  unfold write writeAt at h
  rcases hr : d.resolve q .file with e | ⟨l, y⟩
  · rw [hr] at h
    cases h
  · obtain ⟨-, -, w⟩ := resolve_eq_ok_iff.1 hr
    obtain ⟨hland, hparent⟩ := w.landing
    have hstart := hasFolder_start hr
    rw [hr] at h
    cases y with
    | none =>
      obtain ⟨front, n, rfl, hf⟩ := hparent rfl
      cases h
      refine ⟨rfl, _, _, rfl, ?_, ?_, ?_, fun r hr => Item.alike_put hf hr⟩
      · rintro ⟨time, es, hat⟩
        rw [hland] at hat
        cases hat
      · simp [hland]
      · obtain ⟨time, es, hat⟩ := hf
        exact ⟨_, Item.at?_put_self hat⟩
    | some it =>
      have hit := w.notLink (fun ha => by cases ha) hstart
      cases it with
      | link target => exact absurd rfl (hit target)
      | folder time es => cases h
      | file c time =>
        rcases List.eq_nil_or_concat' l with rfl | ⟨front, n, rfl⟩
        · obtain ⟨time', es, hat⟩ := hstart.above List.nil_prefix
          rw [hland] at hat
          cases hat
        · cases h
          have hf := Item.hasFolder_of_concat hland
          refine ⟨rfl, _, _, rfl, ?_, ?_, ⟨d.nowNs, ?_⟩, fun r hr => ?_⟩
          · rintro ⟨time, es, hat⟩
            rw [hland] at hat
            cases hat
          · simp [hland]
          · have := Item.at?_change (fun _ => .file b d.nowNs) (front ++ [n]) [] d.root
            rw [List.append_nil, hland] at this
            exact this
          · rw [Item.change_append]
            exact Item.alike_change (Item.onlyAt_change _) hf hr

/-- The entry at a path that has been written to is no folder. -/
theorem isFolder_eq_false_of_write (h : d.write q b = .ok d') {it : Item}
    (he : d'.resolve q .entry = .ok (l, some it)) : it.isFolder = false := by
  obtain ⟨hwork, l', y, hfile, hw⟩ := written_of_write h
  obtain ⟨-, -, w⟩ := resolve_eq_ok_iff.1 hfile
  obtain ⟨-, -, w'⟩ := resolve_eq_ok_iff.1 he
  have hstart : d'.startOf q = d.startOf q := by
    unfold startOf
    rw [hwork]
  rw [hstart] at w'
  cases it with
  | file c time => rfl
  | link target => rfl
  | folder time es =>
    -- the path would have led to a folder before as well
    obtain ⟨time', es', w''⟩ := hw.leads_iff.1 ⟨time, es, w'.toItem fun _ hc => by cases hc⟩
    have hland := w.landing.1
    have hy : ∀ target, y ≠ some (.link target) := by
      intro target hc
      rw [hc] at hland
      exact hw.notLink target hland
    obtain ⟨rfl, rfl⟩ := w''.unique (w.toItem hy)
    exact absurd ⟨time', es', hland⟩ hw.notFolder

theorem entry_eq_resolve (h : endsInSlash p = false) : d.entry p = d.resolve p .entry := by
  unfold entry
  rw [withoutSlashes_eq_self h]
  unfold resolve
  cases refused? p <;> rfl

theorem resolve_of_find {it : Item} (h : d.find q aim = .ok (l, it)) :
    d.resolve q aim = .ok (l, some it) := by
  unfold find existing at h
  rcases hr : d.resolve q aim with e | ⟨l', _ | y⟩
  · rw [hr] at h
    cases h
  · rw [hr] at h
    cases h
  · rw [hr] at h
    cases h
    rfl

/-- What moving an entry that is no folder does. -/
theorem rename_effect (h : d.rename q p = .ok d')
    (hfile : ∀ l it, d.resolve q .entry = .ok (l, some it) → it.isFolder = false) :
    endsInSlash p = false ∧ endsInDots p = false ∧ d'.workingFolder = d.workingFolder ∧
      ∃ source it target y, d.resolve q .entry = .ok (source, some it) ∧
        d.resolve p .entry = .ok (target, y) ∧ y.any Item.isFolder = false ∧
        (source ≠ target → d'.root = (d.root.drop source d.nowNs).put target it d.nowNs) := by
  unfold rename at h
  rcases hs : d.find q .entry with e | ⟨source, it⟩
  · rw [hs] at h
    cases h
  · have hsource := resolve_of_find hs
    rcases ht : (if endsInDots p then d.resolve p .entry else d.entry p) with e | ⟨target, y⟩
    · rw [hs, ht] at h
      cases h
    · rw [hs, ht] at h
      simp only [hfile source it hsource, Bool.not_false, Bool.and_true] at h
      split_ifs at h with hdots hslash hfolder hsame
      · rw [Bool.not_eq_true] at hdots hslash hfolder
        rw [if_neg (by simp [hdots]), entry_eq_resolve hslash] at ht
        cases h
        exact ⟨hslash, hdots, rfl, source, it, target, y, hsource, ht, hfolder,
          fun hne => absurd hsame hne⟩
      · rw [Bool.not_eq_true] at hdots hslash hfolder
        rw [if_neg (by simp [hdots]), entry_eq_resolve hslash] at ht
        cases h
        exact ⟨hslash, hdots, rfl, source, it, target, y, hsource, ht, hfolder, fun _ => rfl⟩

/-- The disk once the folder of a file to be saved is there. -/
def prepared (d : Disk) (p : Path) : Disk :=
  match p.parent? with
  | some up => (d.createFolders up).1
  | none => d

theorem eq_ok_of_attempt {refused : Option IoError} {result : Except IoError Disk}
    (h : attempt refused d result = (d', .ok ())) : result = .ok d' := by
  unfold attempt at h
  split at h
  · cases h
  · cases h
  · cases h
    rfl

theorem save_cases {refusal : Refusal} (h : (d.save refusal p b).2 = .ok ()) :
    ∃ d₁, (d.prepared p).write (temporary p) b = .ok d₁ ∧
      d₁.rename (temporary p) p = .ok (d.save refusal p b).1 := by
  unfold save at h ⊢
  simp only at h ⊢
  split at h
  · cases h
  · next d₁ hd₁ =>
    have hd : d.prepared p = d₁ := by
      unfold prepared
      cases hr : refusal p .folder with
      | some e => rw [hr] at hd₁; cases hd₁
      | none =>
        rw [hr] at hd₁
        cases hp : p.parent? with
        | none => rw [hp] at hd₁; cases hd₁; rfl
        | some up => rw [hp] at hd₁; simp only at hd₁ ⊢; rw [hd₁]
    rw [hd]
    split at h
    · cases h
    · next d₂ hd₂ => exact ⟨d₂, eq_ok_of_attempt hd₂, eq_ok_of_attempt (Prod.ext rfl h)⟩

/-- What stands where once an entry of a folder has taken the place of another one. -/
theorem at?_drop_put {root : Item} (it : Item) (now : Int) (hmid : root.HasFolder mid)
    (hne : s' ≠ s) (hs : ¬root.HasFolder (mid ++ [s])) (hs' : ¬root.HasFolder (mid ++ [s'])) :
    let root' := (root.drop (mid ++ [s']) now).put (mid ++ [s]) it now
    root'.at? (mid ++ [s]) = some it ∧ root'.at? (mid ++ [s']) = none ∧
      ∀ r, r ≠ mid ++ [s] → r ≠ mid ++ [s'] → root.at? r ≠ none →
        Item.Alike (root.at? r) (root'.at? r) := by
  intro root'
  have hbelow : ∀ n, ¬mid ++ [n] <+: mid := fun n hp => by
    have := hp.length_le
    simp at this
  have hmid' : (root.drop (mid ++ [s']) now).HasFolder mid :=
    (Item.alike_drop hmid (hbelow s')).hasFolder_iff.1 hmid
  refine ⟨?_, ?_, fun r hc he hr => ?_⟩
  · obtain ⟨time, es, hat⟩ := hmid'
    exact Item.at?_put_self hat
  · have hbeside : ¬mid ++ [s] <+: mid ++ [s'] := fun hp => by
      have := hp.eq_of_length (by simp)
      simp only [List.append_cancel_left_eq, List.cons.injEq, and_true] at this
      exact hne this.symm
    have halike : Item.Alike _ (root'.at? (mid ++ [s'])) := Item.alike_put hmid' hbeside
    rw [Item.at?_drop_self hmid] at halike
    rcases halike with h | ⟨⟨_, _, h⟩, -⟩
    · exact h.symm
    · cases h
  · have hc' : ¬mid ++ [s] <+: r := fun hp => hc (Item.eq_of_at?_of_prefix hs hp hr)
    have he' : ¬mid ++ [s'] <+: r := fun hp => he (Item.eq_of_at?_of_prefix hs' hp hr)
    exact (Item.alike_drop hmid he').trans (Item.alike_put hmid' hc')

/-- A file and its temporary file have different names in one folder, and both paths can be used:
they start at the same place and have the same segments but for the last one. -/
structure Beside (d : Disk) (p : Path) (front : List Bytes) (mid : Location) (s s' : Bytes) :
    Prop where
  usable : refused? p = none ∧ p.bytes ≠ []
  usable' : refused? (temporary p) = none ∧ (temporary p).bytes ≠ []
  start : d.startOf (temporary p) = d.startOf p
  segments : steps p = front ++ [s]
  segments' : steps (temporary p) = front ++ [s']
  name : Names .item s []
  name' : Names .item s' []
  ne : s' ≠ s
  leads : Leads d.root maxLinks (d.startOf p) front mid

namespace Beside

variable {front : List Bytes}

theorem resolve_entry (h : Beside d p front mid s s') :
    d.resolve p .entry = .ok (mid ++ [s], d.root.at? (mid ++ [s])) := by
  refine resolve_eq_ok_iff.2 ⟨h.usable.1, h.usable.2, ?_⟩
  rw [h.segments]
  exact h.leads.extend (h.name.retarget fun ha => by cases ha) fun _ _ => rfl

theorem resolve_temporary (h : Beside d p front mid s s') :
    d.resolve (temporary p) .entry = .ok (mid ++ [s'], d.root.at? (mid ++ [s'])) := by
  refine resolve_eq_ok_iff.2 ⟨h.usable'.1, h.usable'.2, ?_⟩
  rw [h.segments', h.start]
  exact h.leads.extend (h.name'.retarget fun ha => by cases ha) fun _ _ => rfl

/-- Writing moves neither of them. -/
theorem of_written (h : Beside d p front mid s s') (hw : Written d.root d'.root l b)
    (hwork : d'.workingFolder = d.workingFolder) : Beside d' p front mid s s' := by
  have hstart : ∀ q, d'.startOf q = d.startOf q := by
    intro q
    unfold startOf
    rw [hwork]
  refine { h with start := ?_, leads := ?_ }
  · rw [hstart, hstart, h.start]
  · rw [hstart, hw.leads_iff]
    exact h.leads

end Beside

/-- If a temporary file can be written and the path of the file has an entry or may get one, then
they stand beside each other, unless a link stands for the temporary file. -/
theorem exists_beside {z : Location × Option Item} (hslash : endsInSlash p = false)
    (hdots : endsInDots p = false) (hentry : d'.resolve p .entry = .ok z)
    (hfile : d.resolve (temporary p) .file = .ok (T, y)) (hT : ¬d.root.HasFolder T) :
    ∃ front mid s s', Beside d p front mid s s' ∧ (T = mid ++ [s'] ∨
      ∃ k target, d.root.at? (mid ++ [s']) = some (.link target) ∧
        Walks d.root .file k (if target.isAbsolute then [] else mid) (steps target) T y) := by
  obtain ⟨hrefused', htext', wfile⟩ := resolve_eq_ok_iff.1 hfile
  obtain ⟨hrefused, htext, wentry⟩ := resolve_eq_ok_iff.1 hentry
  obtain ⟨front, s, s', hs, hsteps, hsteps', habs, hs'⟩ := steps_temporary htext hslash hdots
  have hstart : d.startOf (temporary p) = d.startOf p := by
    unfold startOf
    rw [habs]
  obtain ⟨k, mid, hleads, wlast⟩ := wfile.split hsteps'
  obtain ⟨_, _, -, wlast'⟩ := wentry.split hsteps
  have hname : Names .item s [] := (wlast'.of_last hs).1.retarget fun he => by cases he
  rcases hs' with rfl | ⟨hs', hne⟩
  · -- two dots lead to a folder
    cases wlast.of_up with
    | done hat => exact absurd hleads.hasFolder.dropLast hT
  · obtain ⟨hname', hlast⟩ := wlast.of_last hs'
    replace hname' : Names .item s' [] := hname'.retarget fun he => by cases he
    rw [hstart] at hleads
    exact ⟨front, mid, s, s', ⟨⟨hrefused, htext⟩, ⟨hrefused', htext'⟩, hstart, hsteps, hsteps',
      hname, hname', hne, hleads⟩, hlast⟩

/-- How a saved file came into its place: what stood at the name of the temporary file was moved to
the name of the file. That was the file, or a link that led to it. -/
structure Replaces (d d' : Disk) (p : Path) (b : Bytes) (front : List Bytes) (mid : Location)
    (s s' : Bytes) : Prop where
  beside : Beside d p front mid s s'
  start : d'.startOf p = d.startOf p
  moved : Moved d.root d'.root mid s s'
  placed : (∃ time, d'.root.at? (mid ++ [s]) = some (.file b time)) ∨
    ∃ target k l y time, d.root.at? (mid ++ [s']) = some (.link target) ∧
      d'.root.at? (mid ++ [s]) = some (.link target) ∧
      Walks d.root .file k (if target.isAbsolute then [] else mid) (steps target) l y ∧
      (l ≠ mid ++ [s] → l ≠ mid ++ [s'] → d'.root.at? l = some (.file b time))

/-- Writing a temporary file and moving it changes nothing but the places of the two files. -/
theorem Written.moved {root₂ it : Item} {now : Int} (hw : Written root root₂ T b)
    (hmid : root.HasFolder mid) (hne : s' ≠ s) (hs : ¬root.HasFolder (mid ++ [s]))
    (hs' : ¬root.HasFolder (mid ++ [s'])) :
    Moved root ((root₂.drop (mid ++ [s']) now).put (mid ++ [s]) it now) mid s s' := by
  obtain ⟨-, hgone, hrest⟩ := at?_drop_put it now (hw.hasFolder_iff.2 hmid) hne
    (fun hc => hs (hw.hasFolder_iff.1 hc)) fun hc => hs' (hw.hasFolder_iff.1 hc)
  refine ⟨fun q hq => ?_, fun q target hc he hat => ?_, fun q c time hc he hat => ?_, hs, hs',
    hgone⟩
  · obtain ⟨time, es, hat⟩ := hw.hasFolder_iff.2 hq
    refine (hrest q ?_ ?_ (by simp [hat])).hasFolder_iff.1 ⟨time, es, hat⟩
    · rintro rfl
      exact hs hq
    · rintro rfl
      exact hs' hq
  · have hat₂ := hw.link_iff.2 hat
    rw [(hrest q hc he (by simp [hat₂])).eq_of_not_folder (Item.not_hasFolder hat₂ rfl), hat₂]
  · obtain ⟨c', time', hat₂⟩ : ∃ c' time', root₂.at? q = some (.file c' time') := by
      by_cases hT : q = T
      · obtain ⟨time', hfile⟩ := hw.file
        exact ⟨b, time', hT ▸ hfile⟩
      · refine ⟨c, time, ?_⟩
        rw [(hw.kept hT (by simp [hat])).eq_of_not_folder (Item.not_hasFolder hat rfl), hat]
    refine ⟨c', time', ?_⟩
    rw [(hrest q hc he (by simp [hat₂])).eq_of_not_folder (Item.not_hasFolder hat₂ rfl), hat₂]

/-- A file that was saved came into its place as `Replaces` says. -/
theorem save_replaces {refusal : Refusal} (h : (d.save refusal p b).2 = .ok ()) :
    ∃ front mid s s', Replaces (d.prepared p) (d.save refusal p b).1 p b front mid s s' := by
  obtain ⟨d₂, hwrite, hrename⟩ := save_cases h
  generalize d.prepared p = d₁ at hwrite ⊢
  generalize (d.save refusal p b).1 = d₃ at hrename ⊢
  obtain ⟨hwork, T, y, hfile, hw⟩ := written_of_write hwrite
  obtain ⟨hslash, hdots, hwork', source, it, target, z, hsource, htarget, hz, hmove⟩ :=
    rename_effect hrename fun l it he => isFolder_eq_false_of_write hwrite he
  obtain ⟨front, mid, s, s', hbeside, hlast⟩ :=
    exists_beside hslash hdots htarget hfile hw.notFolder
  have hmid := hbeside.leads.hasFolder
  -- these are the entries that were moved and replaced
  have hbeside₂ := hbeside.of_written hw hwork
  have hplain' := isFolder_eq_false_of_write hwrite hsource
  rw [hbeside₂.resolve_entry] at htarget
  rw [hbeside₂.resolve_temporary] at hsource
  obtain ⟨rfl, rfl⟩ := Prod.mk.inj (Except.ok.inj htarget)
  obtain ⟨rfl, hit⟩ := Prod.mk.inj (Except.ok.inj hsource)
  replace hplain' := Item.not_hasFolder hit hplain'
  have hplain : ¬d₂.root.HasFolder (mid ++ [s]) := by
    rintro ⟨time, es, hat⟩
    rw [hat] at hz
    cases hz
  have hroot := hmove (by simpa using hbeside.ne)
  obtain ⟨hput, -, hrest⟩ := at?_drop_put it d₂.nowNs (hw.hasFolder_iff.2 hmid) hbeside.ne hplain
    hplain'
  obtain ⟨time, hnew⟩ := hw.file
  refine ⟨front, mid, s, s', hbeside, ?_, ?_, ?_⟩
  · unfold startOf
    rw [hwork', hwork]
  · rw [hroot]
    exact hw.moved hmid hbeside.ne (fun hc => hplain (hw.hasFolder_iff.2 hc))
      fun hc => hplain' (hw.hasFolder_iff.2 hc)
  · rw [hroot]
    rcases hlast with rfl | ⟨k', target, hlink, w⟩
    · rw [hit] at hnew
      cases hnew
      exact .inl ⟨time, hput⟩
    · have hlink₂ := hw.link_iff.2 hlink
      rw [hit] at hlink₂
      cases hlink₂
      refine .inr ⟨target, k', T, y, time, hlink, hput, w, fun hc he => ?_⟩
      rw [(hrest T hc he (by simp [hnew])).eq_of_not_folder (Item.not_hasFolder hnew rfl), hnew]

/-! ### Reading a saved file -/

/-- A link stands at a path. -/
def IsLink (d : Disk) (p : Path) : Prop :=
  ∃ l target, d.resolve p .entry = .ok (l, some (.link target))

namespace Replaces

variable {front : List Bytes} {it : Item}

/-- Whoever comes upon the new entry gets to the contents, or nowhere. -/
theorem file_of_name (h : Replaces d d' p b front mid s s')
    (w : Walks d'.root .item k mid (s :: rest) l (some x)) : ∃ time, x = .file b time := by
  have hname := h.beside.name
  rcases h.placed with ⟨time, hfile⟩ | ⟨target, K, T, y, time, -, hlink, wT, hT⟩
  · refine ⟨time, ?_⟩
    rcases w.of_name hname.nonempty hname.notHere hname.notUp with
      ⟨_, target, -, hat, -⟩ | ⟨_, -, -, w⟩
    · rw [hfile] at hat
      cases hat
    · obtain ⟨-, -, hx⟩ := w.of_file hfile
      exact Option.some.inj hx
  · exact ⟨time, h.moved.file_of_link hname hlink wT hT w⟩

/-- The path of the file leads to the contents, or nowhere. -/
theorem file_of_item (h : Replaces d d' p b front mid s s') (hit : d'.item p = .ok it) :
    ∃ time, it = .file b time := by
  obtain ⟨l, hres⟩ := item_eq_ok_iff.1 hit
  obtain ⟨-, -, w'⟩ := resolve_eq_ok_iff.1 hres
  rw [h.start, h.beside.segments] at w'
  obtain ⟨_, _, w⟩ := h.beside.leads
  have hstart := hasFolder_start h.beside.resolve_entry
  have hs : d.startOf p ≠ mid ++ [s] := fun hc => h.moved.target (hc ▸ hstart)
  have hs' : d.startOf p ≠ mid ++ [s'] := fun hc => h.moved.source (hc ▸ hstart)
  rcases h.moved.walk_on (fun _ _ _ _ _ => h.file_of_name) w (fun ha => by cases ha)
    (fun hc => by cases hc) hs hs' w' with hx | ⟨-, -, _, -, w''⟩
  · exact hx
  · exact h.file_of_name w''

/-- Without links at the places of the two files the path leads to the contents. -/
theorem item_of_not_link (h : Replaces d d' p b front mid s s') (hp : ¬d.IsLink p)
    (hp' : ¬d.IsLink (temporary p)) : ∃ time, d'.item p = .ok (.file b time) := by
  have hlink : ∀ target, d.root.at? (mid ++ [s]) ≠ some (.link target) := fun target hat =>
    hp ⟨_, target, hat ▸ h.beside.resolve_entry⟩
  have hlink' : ∀ target, d.root.at? (mid ++ [s']) ≠ some (.link target) := fun target hat =>
    hp' ⟨_, target, hat ▸ h.beside.resolve_temporary⟩
  have hleads : Leads d'.root maxLinks (d'.startOf p) front mid := by
    rw [h.start]
    refine h.beside.leads.transfer h.moved.folders fun q target hat => ?_
    refine h.moved.links q target ?_ ?_ hat
    · rintro rfl
      exact hlink target hat
    · rintro rfl
      exact hlink' target hat
  rcases h.placed with ⟨time, hfile⟩ | ⟨target, _, _, _, _, hat, -⟩
  · have w := hleads.extend h.beside.name fun target hat => by
      rw [hfile] at hat
      cases hat
    rw [hfile, ← h.beside.segments] at w
    have hres := resolve_eq_ok_iff.2 ⟨h.beside.usable.1, h.beside.usable.2, w⟩
    exact ⟨time, item_eq_ok_iff.2 ⟨_, hres⟩⟩
  · exact absurd hat (hlink' target)

end Replaces

/-- A saved file is out of reach: a link stood for it or for its temporary file, and its path leads
nowhere now. -/
def OutOfReach (d d' : Disk) (p : Path) : Prop :=
  ((d.prepared p).IsLink p ∨ (d.prepared p).IsLink (temporary p)) ∧ d'.hasItem p = false

/-- What was saved is read back. -/
theorem read_save {refusal : Refusal} (h : (d.save refusal p b).2 = .ok ()) :
    (d.save refusal p b).1.read p = .ok b ∨ OutOfReach d (d.save refusal p b).1 p := by
  obtain ⟨front, mid, s, s', hr⟩ := save_replaces h
  generalize (d.save refusal p b).1 = d' at hr ⊢
  cases hit : d'.item p with
  | ok it =>
    obtain ⟨time, rfl⟩ := hr.file_of_item hit
    left
    unfold read
    rw [hit]
  | error e =>
    refine .inr ⟨?_, by rw [hasItem, hit]; rfl⟩
    by_contra hc
    rw [not_or] at hc
    obtain ⟨time, hok⟩ := hr.item_of_not_link hc.1 hc.2
    rw [hit] at hok
    cases hok

end Disk

end SignalAtlas
