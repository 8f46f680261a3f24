import Mathlib.Tactic
import SignalAtlas.Proofs.Analyses
import SignalAtlas.Proofs.RoundTrips

/-!
# Ledgers in use

Several ledgers are kept on one disk. Each is updated, cleared, stored and loaded in any order, and
one may load what another has stored. What counts for a file is the last call that decided its
entry. A ledger knows a path by its text only, so a call on a path decides on all paths that are
shown like it.

A `Past` is the list of the calls that made a ledger what it is, the last one first; a ledger that
was loaded has the past of the one that was stored as well. `Past.stamp` reads off it what holds of
a file, without a look at any ledger.

* `Shelf.Kept`, kept by every step (`Reached.kept`): the entries of a ledger are the stamps of its
  past;
* `Past.stamp_about`: the calls on paths with other texts may be struck out of a past;
* `last_call_decides_staleness`: a file is not stale if and only if its stamp has the schema in
  force and the time of the file's last change;
* `paths_shown_alike_share_an_entry`: a call on one file does decide on another one that is shown
  like it, and all changes before the epoch count as made at the epoch.
-/

namespace SignalAtlas

open Disk

namespace Ledger

/-! ### The past of a ledger -/

/-- The time with which a file was entered, in milliseconds since the epoch, and the schema that was
in force then. -/
structure Stamp where
  mtime : UInt64
  version : UInt32
  deriving DecidableEq

/-- The calls that made a ledger: a file was entered or forgotten, all files were forgotten, another
schema was put in force, the ledger was stored (or could not be), and it was loaded, either from a
file in which a ledger with the past `source` was stored or from one that was missing or held no
ledger. -/
inductive Past where
  | new
  | updated (past : Past) (p : Path) (mtime : UInt64)
  | evicted (past : Past) (p : Path)
  | cleared (past : Past)
  | registered (past : Past) (version : UInt32)
  | persisted (past : Past)
  | restored (past source : Past)
  | emptied (past : Past)

namespace Past

/-- The schema in force: the last one that was registered. -/
def version : Past → UInt32
  | new => Graph.schema
  | registered _ version => version
  | updated past _ _ | evicted past _ | cleared past | persisted past | restored past _
  | emptied past => past.version

/-- The past of a ledger that was loaded, given the past of the ledger found in the file. -/
def loaded (past : Past) : Option Past → Past
  | some source => past.restored source
  | none => past.emptied

/-- What the last call that decided on the text of a path has left of it. -/
def stamp (p : Path) : Past → Option Stamp
  | new | cleared _ | emptied _ => none
  | updated past q mtime =>
    if p.text = q.text then some ⟨mtime, past.version⟩ else past.stamp p
  | evicted past q => if p.text = q.text then none else past.stamp p
  | registered past _ | persisted past => past.stamp p
  | restored _ source => source.stamp p

/-- A past without the calls on paths with other texts, in the pasts of stored ledgers as well. -/
def about (p : Path) : Past → Past
  | new => new
  | updated past q mtime =>
    if p.text = q.text then (past.about p).updated q mtime else past.about p
  | evicted past q => if p.text = q.text then (past.about p).evicted q else past.about p
  | cleared past => (past.about p).cleared
  | registered past version => (past.about p).registered version
  | persisted past => (past.about p).persisted
  | restored past source => (past.about p).restored (source.about p)
  | emptied past => (past.about p).emptied

theorem version_about (p : Path) (past : Past) : (past.about p).version = past.version := by
  induction past with
  | new => rfl
  | updated past q mtime ih =>
    unfold about
    split <;> exact ih
  | evicted past q ih =>
    unfold about
    split <;> exact ih
  | registered past version ih => rfl
  | cleared past ih => exact ih
  | persisted past ih => exact ih
  | restored past source ih => exact ih
  | emptied past ih => exact ih

/-- Calls on paths with other texts do not count. -/
theorem stamp_about (p : Path) (past : Past) : (past.about p).stamp p = past.stamp p := by
  induction past with
  | new => rfl
  | updated past q mtime ih =>
    by_cases hq : p.text = q.text
    · simp only [about, stamp, if_pos hq, version_about]
    · simp only [about, stamp, if_neg hq, ih]
  | evicted past q ih =>
    by_cases hq : p.text = q.text
    · simp only [about, stamp, if_pos hq]
    · simp only [about, stamp, if_neg hq, ih]
  | cleared past ih => rfl
  | registered past version ih => exact ih
  | persisted past ih => exact ih
  | restored past source _ ih => exact ih
  | emptied past ih => rfl

end Past

/-! ### A ledger and its past -/

/-- The entry that a stamp stands for. -/
def Stamp.entry (p : Path) (s : Stamp) : LedgerEntry := ⟨p.text, s.mtime, s.version⟩

/-- The schema and the entries of a ledger are those of its past. -/
structure Shows (l : Ledger) (past : Past) : Prop where
  version : l.schemaVersion = past.version
  entries : ∀ p, l.get? p = (past.stamp p).map (Stamp.entry p)

namespace Shows

variable {l l' : Ledger} {past source : Past}

theorem empty : Shows .empty .new := by
  refine ⟨rfl, fun p => ?_⟩
  exact SortedMap.get?_empty p.text

theorem update (h : l.Shows past) (p : Path) (mtime : UInt64) :
    (l.update p mtime).Shows (past.updated p mtime) := by
  refine ⟨h.version, fun q => ?_⟩
  rw [get?_update, Past.stamp]
  split
  · next hq => rw [Option.map_some, Stamp.entry, hq, h.version]
  · exact h.entries q

theorem evict (h : l.Shows past) (p : Path) : (l.evict p).Shows (past.evicted p) := by
  refine ⟨h.version, fun q => ?_⟩
  rw [get?_evict, Past.stamp]
  split
  · rfl
  · exact h.entries q

theorem clear (h : l.Shows past) : l.clear.Shows past.cleared :=
  ⟨h.version, fun q => get?_clear l q⟩

theorem registerSchema (h : l.Shows past) (version : UInt32) :
    (l.registerSchema version).Shows (past.registered version) :=
  ⟨rfl, h.entries⟩

theorem persist (h : l.Shows past) : l.Shows past.persisted := ⟨h.version, h.entries⟩

/-- A load brings the entries of the ledger that was stored. -/
theorem load_restored (h : l.Shows past) (h' : l'.Shows source) {d : Disk} {q : Path}
    (hread : d.read q = .ok (Text.bytes l'.toJson.pretty)) :
    (l.load d q).Shows (past.restored source) := by
  have hstored : stored d q = l'.entries := by
    unfold stored
    rw [hread]
    simp only [entries?_toJson, Option.getD_some]
  refine ⟨h.version, fun p => ?_⟩
  have hget : (l.load d q).get? p = l'.get? p := by rw [get?, load, hstored, get?]
  rw [hget]
  exact h'.entries p

/-- A load that finds no ledger drops all entries. -/
theorem load_emptied (h : l.Shows past) {d : Disk} {q : Path}
    (hread : ∀ b, d.read q = .ok b → Ledger.entries? b = none) :
    (l.load d q).Shows past.emptied := by
  have hstored : stored d q = .empty := by
    unfold stored
    cases hq : d.read q with
    | error e => rfl
    | ok b => simp only [hread b hq, Option.getD_none]
  refine ⟨h.version, fun p => ?_⟩
  rw [get?, load, hstored]
  exact SortedMap.get?_empty p.text

/-- What the past of a ledger says of a file decides whether the file is stale. -/
theorem isStale_eq_false_iff (h : l.Shows past) {d : Disk} {p : Path} :
    l.isStale d p = false ↔
      ∃ mtime, past.stamp p = some ⟨mtime, past.version⟩ ∧ d.modifiedMs p = .ok mtime := by
  rw [Ledger.isStale_eq_false_iff, h.entries p, h.version]
  constructor
  · rintro ⟨e, it, he, hversion, hitem, htime⟩
    obtain ⟨s, hs, rfl⟩ := Option.map_eq_some_iff.1 he
    refine ⟨s.mtime, ?_, ?_⟩
    · rw [hs, ← hversion]
      rfl
    · rw [modifiedMs, hitem, ← show milliseconds it.modified = s.mtime from htime]
      rfl
  · rintro ⟨mtime, hs, htime⟩
    unfold modifiedMs at htime
    cases hitem : d.item p with
    | error x =>
      rw [hitem] at htime
      cases htime
    | ok it =>
      rw [hitem] at htime
      refine ⟨Stamp.entry p ⟨mtime, past.version⟩, it, by rw [hs, Option.map_some], rfl, rfl, ?_⟩
      exact Except.ok.inj htime

end Shows

/-! ### A shelf of ledgers -/

/-- A call of a ledger: it enters or forgets a file, forgets all files, puts another schema in
force, stores its entries at a path, or replaces them by those stored there. -/
inductive Call where
  | update (p : Path) (mtime : UInt64)
  | evict (p : Path)
  | clear
  | registerSchema (version : UInt32)
  | persist (refusal : Refusal) (q : Path)
  | load (q : Path)

/-- A call on one file, whose path has another text than `p`. -/
def Call.PassesBy (p : Path) : Call → Prop
  | .update q _ | .evict q => p.text ≠ q.text
  | .clear | .registerSchema _ | .persist _ _ | .load _ => False

/-- Paths that are texts have different texts if they differ. -/
theorem text_ne_of_isText {p q : Path} (hp : p.bytes.IsText) (hq : q.bytes.IsText) (hne : q ≠ p) :
    p.text ≠ q.text := by
  intro htext
  refine hne ?_
  rw [Path.mk.injEq]
  exact (hp.eq_of_lossy hq htext).symm

/-- What happens on a shelf: the disk changes, in any way, or a ledger is called. -/
inductive Happening where
  | change (d : Disk)
  | call (i : Nat) (c : Call)

/-- A disk and the ledgers in use on it, each with a number of its own. Beside the ledgers stand
their pasts and the texts that were stored, each with the past of its ledger and the last one first;
no ledger looks at these. -/
structure Shelf where
  disk : Disk
  ledger : Nat → Ledger
  past : Nat → Past
  written : List (Bytes × Past)

namespace Shelf

/-- All ledgers are new. -/
def start (d : Disk) : Shelf := ⟨d, fun _ => .empty, fun _ => .new, []⟩

/-- The past of the ledger that is stored at a path, if one is. -/
def source? (w : Shelf) (q : Path) : Option Past :=
  match w.disk.read q with
  | .ok b => w.written.lookup b
  | .error _ => none

/-- Put a ledger and its past in the place of another one. -/
def put (w : Shelf) (i : Nat) (l : Ledger) (past : Past) : Shelf :=
  { w with ledger := Function.update w.ledger i l, past := Function.update w.past i past }

/-- The shelf after a call. -/
def call (w : Shelf) (i : Nat) : Call → Shelf
  | .update p mtime => w.put i ((w.ledger i).update p mtime) ((w.past i).updated p mtime)
  | .evict p => w.put i ((w.ledger i).evict p) ((w.past i).evicted p)
  | .clear => w.put i (w.ledger i).clear (w.past i).cleared
  | .registerSchema version =>
    w.put i ((w.ledger i).registerSchema version) ((w.past i).registered version)
  | .persist refusal q =>
    { w.put i (w.ledger i) (w.past i).persisted with
      disk := ((w.ledger i).persist refusal w.disk q).1
      written := (Text.bytes (w.ledger i).toJson.pretty, w.past i) :: w.written }
  | .load q => w.put i ((w.ledger i).load w.disk q) ((w.past i).loaded (w.source? q))

/-- The shelf after a step. -/
def step (w : Shelf) : Happening → Shelf
  | .change d => { w with disk := d }
  | .call i c => w.call i c

/-- A ledger is loaded only from a file that a ledger was stored in, or that is missing or holds no
ledger at all. -/
def Admits (w : Shelf) : Happening → Prop
  | .call _ (.load q) => ∀ b, w.disk.read q = .ok b →
      (w.written.lookup b).isSome = true ∨ Ledger.entries? b = none
  | _ => True

/-- The shelves that steps lead to. -/
inductive Reached : Shelf → Prop
  | start (d : Disk) : Reached (start d)
  | step {w : Shelf} (h : Reached w) (e : Happening) (hadmits : w.Admits e) : Reached (w.step e)

/-- The pasts are those of the ledgers, also of those that were stored. -/
structure Kept (w : Shelf) : Prop where
  shows : ∀ i, (w.ledger i).Shows (w.past i)
  written : ∀ b past, (b, past) ∈ w.written →
    ∃ l : Ledger, b = Text.bytes l.toJson.pretty ∧ l.Shows past

namespace Kept

variable {w : Shelf}

theorem put (h : w.Kept) {i : Nat} {l : Ledger} {past : Past} (hl : l.Shows past) :
    (w.put i l past).Kept := by
  refine ⟨fun j => ?_, h.written⟩
  by_cases hj : j = i
  · subst hj
    simpa only [Shelf.put, Function.update_self] using hl
  · simpa only [Shelf.put, Function.update_of_ne hj] using h.shows j

theorem load (h : w.Kept) (i : Nat) {q : Path} (hadmits : w.Admits (.call i (.load q))) :
    (w.call i (.load q)).Kept := by
  refine h.put ?_
  cases hq : w.source? q with
  | some source =>
    unfold source? at hq
    cases hread : w.disk.read q with
    | error e =>
      rw [hread] at hq
      cases hq
    | ok b =>
      rw [hread] at hq
      obtain ⟨front, rest, hwritten, -⟩ := List.lookup_eq_some_iff.1 hq
      have hmem : (b, source) ∈ w.written := by
        rw [hwritten]
        exact List.mem_append_right _ List.mem_cons_self
      obtain ⟨l, rfl, hl⟩ := h.written b source hmem
      exact (h.shows i).load_restored hl hread
  | none =>
    refine (h.shows i).load_emptied fun b hread => ?_
    have hnone : w.written.lookup b = none := by
      unfold source? at hq
      rw [hread] at hq
      exact hq
    refine (hadmits b hread).resolve_left ?_
    rw [hnone]
    exact Bool.false_ne_true

theorem call (h : w.Kept) (i : Nat) (c : Call) (hadmits : w.Admits (.call i c)) :
    (w.call i c).Kept := by
  cases c with
  | update p mtime => exact h.put ((h.shows i).update p mtime)
  | evict p => exact h.put ((h.shows i).evict p)
  | clear => exact h.put (h.shows i).clear
  | registerSchema version => exact h.put ((h.shows i).registerSchema version)
  | persist refusal q =>
    refine ⟨(h.put (h.shows i).persist).shows, fun b past hb => ?_⟩
    rcases List.mem_cons.1 hb with hb | hb
    · cases hb
      exact ⟨w.ledger i, rfl, h.shows i⟩
    · exact h.written b past hb
  | load q => exact h.load i hadmits

end Kept

/-- The pasts of a shelf are right. -/
theorem Reached.kept {w : Shelf} (h : w.Reached) : w.Kept := by
  induction h with
  | start d =>
    refine ⟨fun _ => .empty, fun b past hb => ?_⟩
    cases hb
  | step h e hadmits ih =>
    cases e with
    | change d => exact ⟨ih.shows, ih.written⟩
    | call i c => exact ih.call i c hadmits

/-! ### Storing and loading -/

variable {w : Shelf} {i j : Nat} {refusal : Refusal} {p q : Path}

theorem Reached.call (h : w.Reached) (i : Nat) (c : Call) (hadmits : w.Admits (.call i c)) :
    (w.call i c).Reached :=
  h.step (.call i c) hadmits

theorem admits_of_passesBy {c : Call} (h : c.PassesBy p) : w.Admits (.call i c) := by
  cases c with
  | load q => cases h
  | _ => trivial

theorem past_call_load : (w.call j (.load q)).past j = (w.past j).loaded (w.source? q) := by
  simp only [Shelf.call, put, Function.update_self]

theorem source?_of_read {b : Bytes} (h : w.disk.read q = .ok b) :
    w.source? q = w.written.lookup b := by
  rw [source?, h]

theorem written_call_persist :
    (w.call i (.persist refusal q)).written.lookup (Text.bytes (w.ledger i).toJson.pretty) =
      some (w.past i) :=
  List.lookup_cons_self

theorem read_call_persist (h : ((w.ledger i).persist refusal w.disk q).2 = .ok ()) :
    (w.call i (.persist refusal q)).disk.read q =
        .ok (Text.bytes (w.ledger i).toJson.pretty) ∨
      OutOfReach w.disk (w.call i (.persist refusal q)).disk q := by
  unfold Ledger.persist at h
  exact read_save h

/-- What was stored can be loaded, unless its file came out of reach. -/
theorem source?_call_persist (h : ((w.ledger i).persist refusal w.disk q).2 = .ok ()) :
    (w.call i (.persist refusal q)).source? q = some (w.past i) ∨
      OutOfReach w.disk (w.call i (.persist refusal q)).disk q := by
  refine (read_call_persist h).imp_left fun hread => ?_
  rw [source?_of_read hread, written_call_persist]

/-- A file that was stored just now may be loaded. -/
theorem admits_load_of_persist (h : ((w.ledger i).persist refusal w.disk q).2 = .ok ()) :
    (w.call i (.persist refusal q)).Admits (.call j (.load q)) := by
  intro b hb
  rcases read_call_persist h with hread | hout
  · cases hb.symm.trans hread
    rw [written_call_persist]
    exact .inl rfl
  · have hitem := hout.2
    unfold hasItem at hitem
    unfold Disk.read at hb
    cases hq : (w.call i (.persist refusal q)).disk.item q with
    | ok it =>
      rw [hq] at hitem
      cases hitem
    | error e =>
      rw [hq] at hb
      cases hb

/-! ### Calls on other files -/

theorem isStale_put {l : Ledger} {past : Past}
    (hversion : l.schemaVersion = (w.ledger j).schemaVersion)
    (hentry : l.get? p = (w.ledger j).get? p) :
    ((w.put j l past).ledger i).isStale w.disk p = (w.ledger i).isStale w.disk p := by
  by_cases hi : i = j
  · subst hi
    simp only [put, Function.update_self, isStale, hversion, hentry]
  · simp only [put, Function.update_of_ne hi]

/-- A call on a path with another text changes nothing, whichever ledger is called. -/
theorem isStale_call_of_passesBy {c : Call} (h : c.PassesBy p) :
    ((w.call j c).ledger i).isStale (w.call j c).disk p = (w.ledger i).isStale w.disk p := by
  cases c with
  | update q mtime => exact isStale_put rfl ((get?_update _ q p _).trans (if_neg h))
  | evict q => exact isStale_put rfl ((get?_evict _ q p).trans (if_neg h))
  | clear => cases h
  | registerSchema version => cases h
  | persist refusal q => cases h
  | load q => cases h

end Shelf

/-! ### Staleness -/

/-- Of several ledgers in use, in whatever state they are, a file is not stale to one if and only if
the last call that decided on the text of its path entered it with the schema that is in force now
and with the time of its last change. Calls on paths with other texts may be struck out of the past
of the ledger, and one more of them changes nothing; among paths that are texts these are the calls
on all other paths. What a ledger has stored any ledger may load, and then has the entries of the
former and no others; the one exception is a file that came out of reach. -/
theorem last_call_decides_staleness {w : Shelf} (h : w.Reached) (i : Nat) (p : Path) :
    ((w.ledger i).isStale w.disk p = false ↔
      ∃ mtime, (w.past i).stamp p = some ⟨mtime, (w.past i).version⟩ ∧
        w.disk.modifiedMs p = .ok mtime) ∧
    (((w.past i).about p).stamp p = (w.past i).stamp p ∧
      ((w.past i).about p).version = (w.past i).version) ∧
    (∀ j c, c.PassesBy p → (w.call j c).Reached ∧
      ((w.call j c).ledger i).isStale (w.call j c).disk p = (w.ledger i).isStale w.disk p) ∧
    (∀ q, p.bytes.IsText → q.bytes.IsText → q ≠ p →
      (∀ mtime, (Call.update q mtime).PassesBy p) ∧ (Call.evict q).PassesBy p) ∧
    ∀ j refusal q, ((w.ledger i).persist refusal w.disk q).2 = .ok () →
      ((w.call i (.persist refusal q)).call j (.load q)).Reached ∧
      (((w.call i (.persist refusal q)).call j (.load q)).past j =
          ((w.call i (.persist refusal q)).past j).restored (w.past i) ∨
        OutOfReach w.disk (w.call i (.persist refusal q)).disk q) := by
  refine ⟨(h.kept.shows i).isStale_eq_false_iff, ⟨Past.stamp_about p _, Past.version_about p _⟩,
    fun j c hc => ⟨h.call j c (Shelf.admits_of_passesBy hc), Shelf.isStale_call_of_passesBy hc⟩,
    fun q hp hq hne => ⟨fun _ => text_ne_of_isText hp hq hne, text_ne_of_isText hp hq hne⟩,
    fun j refusal q hok => ⟨?_, ?_⟩⟩
  · have hpersist : (w.call i (.persist refusal q)).Reached := h.call i _ trivial
    exact hpersist.call j _ (Shelf.admits_load_of_persist hok)
  · refine (Shelf.source?_call_persist hok).imp_left fun hsource => ?_
    rw [Shelf.past_call_load, hsource]
    rfl

/-! ### A ledger that loads what another one has stored -/

section Borrowed

/-- The path of a script. -/
def script : Path := pathOf ["p", "a.gd"]

/-- A ledger with an entry for the script. -/
def lent : Ledger := Ledger.empty.update script 5

/-- The disk on which the script stands beside the text of that ledger. -/
def library : Disk :=
  holding [("a.gd", .file [] 5000000), ("l", .file (Text.bytes lent.toJson.pretty) 0)]

/-- A ledger enters the script and is stored, and a second one registers another schema. -/
def lending : Shelf :=
  ((((Shelf.start (holding [])).call 0 (.update script 5)).call 0
    (.persist (fun _ _ => none) (pathOf ["p", "l"]))).step (.change library)).call 1
      (.registerSchema 2)

/-- The second ledger loads what the first has stored. -/
def borrowing : Shelf := lending.call 1 (.load (pathOf ["p", "l"]))

/-- It forgets another file, and goes back to the schema of the first. -/
def returning : Shelf :=
  (borrowing.call 1 (.evict (pathOf ["p", "b.gd"]))).call 1 (.registerSchema 1)

theorem modifiedMs_library : library.modifiedMs script = .ok 5 := by
  unfold modifiedMs library script
  rw [item_holding rfl (by decide) (by decide)]
  rfl

theorem disk_lending : lending.disk = library := rfl

theorem read_lending :
    lending.disk.read (pathOf ["p", "l"]) = .ok (Text.bytes lent.toJson.pretty) := by
  rw [disk_lending, Disk.read, library, item_holding rfl (by decide) (by decide)]

theorem written_lending :
    lending.written.lookup (Text.bytes lent.toJson.pretty) = some (.updated .new script 5) :=
  List.lookup_cons_self

theorem reached_borrowing : borrowing.Reached := by
  have hupdated := (Shelf.Reached.start (holding [])).call 0 (.update script 5) trivial
  have hstored := hupdated.call 0 (.persist (fun _ _ => none) (pathOf ["p", "l"])) trivial
  have hchanged := hstored.step (.change library) trivial
  have hlending : lending.Reached := hchanged.call 1 (.registerSchema 2) trivial
  refine hlending.call 1 _ fun b hb => .inl ?_
  cases hb.symm.trans read_lending
  rw [written_lending]
  rfl

theorem past_borrowing :
    borrowing.past 1 = (Past.new.registered 2).restored (.updated .new script 5) := by
  unfold borrowing
  rw [Shelf.past_call_load, Shelf.source?_of_read read_lending, written_lending]
  rfl

/-- An entry comes back with the schema under which it was made. -/
theorem last_call_decides_staleness_of_loaded_entry :
    (borrowing.Reached ∧ (borrowing.ledger 1).isStale borrowing.disk script = true) ∧
      returning.Reached ∧ (returning.ledger 1).isStale returning.disk script = false := by
  have hreturning : returning.Reached :=
    (reached_borrowing.call 1 (.evict (pathOf ["p", "b.gd"])) trivial).call 1 (.registerSchema 1)
      trivial
  refine ⟨⟨reached_borrowing, ?_⟩, hreturning, ?_⟩
  · rw [← Bool.not_eq_false, (last_call_decides_staleness reached_borrowing 1 script).1,
      past_borrowing]
    rintro ⟨mtime, hstamp, -⟩
    -- the entry was made under the first schema, and the second is in force
    have hversion : some (1 : UInt32) = some 2 := congrArg (Option.map Stamp.version) hstamp
    exact absurd hversion (by decide)
  · refine (last_call_decides_staleness hreturning 1 script).1.2 ⟨5, ?_, modifiedMs_library⟩
    have hpast : returning.past 1 =
        ((borrowing.past 1).evicted (pathOf ["p", "b.gd"])).registered 1 := rfl
    rw [hpast, past_borrowing]
    decide

end Borrowed

/-! ### Files that a ledger takes for others -/

section Mistaken

/-- The name of a script that is no text: a byte that no text has, and the extension. -/
def unshown (b : UInt8) : Bytes := b :: Text.bytes ".gd"

/-- A disk with a script whose name is no text and one that was last changed five seconds before the
epoch. -/
def cellar : Disk :=
  holding [(unshown 0xFF, .file [] 5000000), (Text.bytes "a.gd", .file [] (-5000000000))]

/-- Two scripts whose names are shown alike share an entry: when the one is entered, the other is no
longer stale. And a script from before the epoch is not stale once it was entered with the time of
the epoch, which is not the time of its last change. -/
theorem paths_shown_alike_share_an_entry :
    let new := Shelf.start cellar
    let one := pathOf ["p", unshown 0xFE]
    let other := pathOf ["p", unshown 0xFF]
    let early := pathOf ["p", "a.gd"]
    (new.Reached ∧ one ≠ other ∧ (new.ledger 0).isStale cellar other = true ∧
      ((new.call 0 (.update one 5)).ledger 0).isStale cellar other = false) ∧
    cellar.item early = .ok (.file [] (-5000000000)) ∧
      ((0 : UInt64).toNat : Int) ≠ -5000000000 / 1000000 ∧
      ((new.call 0 (.update early 0)).ledger 0).isStale cellar early = false := by
  intro new one other early
  have hother : cellar.item other = .ok (.file [] 5000000) :=
    item_holding rfl (by decide) (by decide)
  have hearly : cellar.item early = .ok (.file [] (-5000000000)) :=
    item_holding rfl (by decide) (by decide)
  have hnew : new.Reached := .start cellar
  have hstale : (new.ledger 0).isStale cellar other = true := by
    rw [← Bool.not_eq_false, (hnew.kept.shows 0).isStale_eq_false_iff]
    rintro ⟨mtime, hstamp, -⟩
    cases hstamp
  refine ⟨⟨hnew, by decide, hstale, ?_⟩, hearly, by decide, ?_⟩
  · refine ((hnew.call 0 (.update one 5) trivial).kept.shows 0).isStale_eq_false_iff.2 ⟨5, ?_, ?_⟩
    · have htext : other.text = one.text := by decide +kernel
      exact if_pos htext
    · rw [modifiedMs, hother]
      rfl
  · refine ((hnew.call 0 (.update early 0) trivial).kept.shows 0).isStale_eq_false_iff.2
      ⟨0, if_pos rfl, ?_⟩
    rw [modifiedMs, hearly]
    rfl

end Mistaken

end Ledger

end SignalAtlas
