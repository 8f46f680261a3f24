import SignalAtlas.Disk.Basic
import SignalAtlas.Script.Codec

/-!
# Snapshots

A `Snapshot` holds the files of a folder together with the syntax trees of its scripts, so that a
command can be carried out on it without a look at the folder. `Snapshot.changes` are the files
that a command has written.
-/

namespace SignalAtlas

/-- A file of a snapshot, by its path below the folder. It was last changed `modified` nanoseconds
after the epoch, and `tree` is its syntax tree if it is a script. -/
structure SnapshotFile where
  path : String
  bytes : Bytes
  modified : Int
  tree : Option Parse

/-- The files of a folder at some time, in milliseconds since the epoch. -/
structure Snapshot where
  now : UInt64
  files : List SnapshotFile

namespace SnapshotFile

/-- Read contents: a text, or a list of bytes. -/
def bytesOf? (j : Json) : Option Bytes :=
  match j.member? "text", j.member? "bytes" with
  | some text, _ => text.string?.map Text.bytes
  | none, some bytes => (bytes.list? (Json.natBelow? 256)).map fun l => l.map Nat.toUInt8
  | none, none => none

/-- Read a file. -/
def ofJson? (j : Json) : Option SnapshotFile := do
  let path ← (← j.member? "path").string?
  let bytes ← bytesOf? j
  let modified :=
    match j.member? "modified" with
    | some (.int n) => n
    | _ => 0
  return { path, bytes, modified, tree := (j.member? "tree").bind Parse.ofJson? }

/-- The source of a script and its syntax tree. -/
def entry (f : SnapshotFile) : Option (String × Parse) := do
  let source ← f.bytes.text?
  let tree ← f.tree
  return (Script.withoutMark source, tree)

end SnapshotFile

namespace Snapshot

/-- Read a snapshot. -/
def ofJson? (j : Json) : Option Snapshot := do
  let now ← (← j.member? "now").word64?
  let files ← (← j.member? "files").list? SnapshotFile.ofJson?
  return { now, files }

/-- The location of the folder on the disk of a snapshot. -/
def folder : Location := ["project"]

/-- Put a file on a disk. -/
def place (d : Disk) (f : SnapshotFile) : Disk :=
  let p := (Disk.pathOf folder).join f.path
  let (d, _) := d.createFolders ((p.parent?).getD p)
  match d.writeAt p f.bytes f.modified with
  | .ok d => d
  | .error _ => d

/-- The disk with the files of a snapshot. -/
def disk (s : Snapshot) : Disk :=
  let bare : Disk := ⟨.folder 0 [], folder, s.now⟩
  s.files.foldl place (bare.createFolders (Disk.pathOf folder)).1

/-- The grammar that knows the scripts of a snapshot. -/
def grammar (s : Snapshot) : Grammar :=
  .ofTable (.ofList (s.files.filterMap SnapshotFile.entry))

mutual

/-- The files among the entries of a folder, with their locations from there. -/
def filesBelow : List (Bytes × Item) → List (Location × Bytes)
  | [] => []
  | (name, it) :: es => (filesOf it).map (fun f => (name :: f.1, f.2)) ++ filesBelow es

/-- The files that an item is or holds, with their locations from there. -/
def filesOf : Item → List (Location × Bytes)
  | .file b _ => [([], b)]
  | .link _ => []
  | .folder _ es => filesBelow es

end

/-- The files in the folder of a disk that another one does not have there. -/
def changes (old new : Disk) : List (Path × Bytes) :=
  let files (d : Disk) := ((d.root.at? folder).map filesOf).getD []
  let known := files old
  ((files new).filter fun f => !known.contains f).map fun f => (Path.ofSegments f.1, f.2)

end Snapshot

end SignalAtlas
