import SignalAtlas.Disk.Basic
import SignalAtlas.Graph.Basic
import SignalAtlas.Json.Printer
import SignalAtlas.Json.Raw

/-!
# Ledgers

A `Ledger` remembers of each parsed file when it was changed last. A file is *stale* unless its
entry was made under the schema in force and tells the time of its present state. Entries are kept
by the texts of paths, so that paths which are shown alike share one.

A ledger is stored as a JSON object with an entry for each path. Whatever cannot be read as one
counts as an empty ledger.
-/

namespace SignalAtlas

/-- What a ledger remembers of a file: its path, the time of its last change in milliseconds since
the epoch, and the schema under which the entry was made. -/
structure LedgerEntry where
  filePath : String
  mtime : UInt64
  schemaVersion : UInt32
  deriving DecidableEq, Repr

/-- What is remembered of the files of a project by the texts of their paths, and the schema in
force. -/
structure Ledger where
  schemaVersion : UInt32
  entries : SortedMap String LedgerEntry

namespace Ledger

/-- A ledger without entries, under the present schema. -/
def empty : Ledger := ⟨Graph.schema, .empty⟩

/-- The entry of a path, which is that of its text. -/
def get? (l : Ledger) (p : Path) : Option LedgerEntry := l.entries.get? p.text

/-- The texts of paths with an entry, in increasing order. -/
def paths (l : Ledger) : List String := l.entries.keys

/-- Remember the time of a file's last change. -/
def update (l : Ledger) (p : Path) (mtime : UInt64) : Ledger :=
  { l with entries := l.entries.insert p.text ⟨p.text, mtime, l.schemaVersion⟩ }

/-- Forget a file. -/
def evict (l : Ledger) (p : Path) : Ledger := { l with entries := l.entries.erase p.text }

@[simp] theorem get?_update (l : Ledger) (p q : Path) (mtime : UInt64) :
    (l.update p mtime).get? q =
      if q.text = p.text then some ⟨p.text, mtime, l.schemaVersion⟩ else l.get? q := by
  rw [get?, update, SortedMap.get?_insert]
  simp only [Std.LawfulEqOrd.compare_eq_iff_eq, get?]

@[simp] theorem get?_evict (l : Ledger) (p q : Path) :
    (l.evict p).get? q = if q.text = p.text then none else l.get? q := by
  rw [get?, evict, SortedMap.get?_erase]
  simp only [Std.LawfulEqOrd.compare_eq_iff_eq, eq_comm (a := p.text), get?]

/-- Forget all files. -/
def clear (l : Ledger) : Ledger := { l with entries := .empty }

@[simp] theorem get?_clear (l : Ledger) (p : Path) : l.clear.get? p = none :=
  SortedMap.get?_empty p.text

/-- Put another schema in force. -/
def registerSchema (l : Ledger) (version : UInt32) : Ledger := { l with schemaVersion := version }

/-- Whether a file has to be parsed again. -/
def isStale (l : Ledger) (d : Disk) (p : Path) : Bool :=
  match l.get? p with
  | none => true
  | some e =>
    e.schemaVersion != l.schemaVersion ||
      match d.modifiedMs p with
      | .ok mtime => mtime != e.mtime
      | .error _ => true

/-! ### The stored form -/

/-- The name of the ledger's file. -/
def fileName : Bytes := "ledger.json"

/-- The JSON form of an entry. -/
def entryJson (e : LedgerEntry) : Json :=
  .object
    [("filePath", .string e.filePath), ("mtime", .word64 e.mtime),
      ("schemaVersion", .word32 e.schemaVersion)]

/-- The JSON form of the entries. -/
def toJson (l : Ledger) : Json := .ofMap entryJson l.entries

/-- Read an entry. -/
def entryOf? (r : Raw) : Option LedgerEntry :=
  match r.fields? ["filePath", "mtime", "schemaVersion"] with
  | some [some filePath, some mtime, some schemaVersion] => do
    let filePath ← filePath.string?
    let mtime ← mtime.word64?
    let schemaVersion ← schemaVersion.word32?
    return { filePath, mtime, schemaVersion }
  | _ => none

/-- Read entries; the last of several for one path counts. -/
def entries? (b : Bytes) : Option (SortedMap String LedgerEntry) := do
  let members ← (← Raw.parse? b).entries?
  let entries ← members.mapM fun m => (entryOf? m.2).map (m.1, ·)
  return .ofList entries

/-- The entries stored at a path. -/
def stored (d : Disk) (p : Path) : SortedMap String LedgerEntry :=
  match d.read p with
  | .ok b => (entries? b).getD .empty
  | .error _ => .empty

/-- Replace the entries by those stored at a path. -/
def load (l : Ledger) (d : Disk) (p : Path) : Ledger := { l with entries := stored d p }

/-- Store the entries at a path. -/
def persist (l : Ledger) (refusal : Disk.Refusal) (d : Disk) (p : Path) :
    Disk × Except IoError Unit :=
  d.save refusal p (Text.bytes l.toJson.pretty)

end Ledger

end SignalAtlas
