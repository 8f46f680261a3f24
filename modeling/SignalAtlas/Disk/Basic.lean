import SignalAtlas.Disk.Tree

/-!
# Disks

A `Disk` is a tree of files with a working folder and a clock. `Disk.walk` follows a path to a
location: through folders, to the parent at two dots, and along symbolic links. `Disk.resolve` does
so for paths of a limited length. The operations below resolve the paths that they are given and
fail with an `IoError` where they cannot.

What an operation changes shows in the disk that it gives back; `Disk.createFolders` and
`Disk.save` consist of several changes and may fail after some of them.
-/

namespace SignalAtlas

/-- Why an operation on files fails. A path is `busy` if it names a folder in use and `nul` if it
holds a NUL byte; `invalid` paths cannot be used for the operation. -/
inductive IoError where
  | notFound
  | alreadyExists
  | notFolder
  | isFolder
  | invalid
  | tooManyLinks
  | busy
  | nameTooLong
  | nul
  | other (message : String)
  deriving DecidableEq, Repr

/-- The wording of an error. -/
def IoError.message : IoError → String
  | .notFound => "No such file or directory (os error 2)"
  | .alreadyExists => "File exists (os error 17)"
  | .notFolder => "Not a directory (os error 20)"
  | .isFolder => "Is a directory (os error 21)"
  | .invalid => "Invalid argument (os error 22)"
  | .busy => "Device or resource busy (os error 16)"
  | .nameTooLong => "File name too long (os error 36)"
  | .nul => "file name contained an unexpected NUL byte"
  | .tooManyLinks => "Too many levels of symbolic links (os error 40)"
  | .other message => message

/-- A tree of files, the location at which relative paths start, and the time in milliseconds since
the epoch. -/
structure Disk where
  root : Item
  workingFolder : Location
  now : UInt64

namespace Disk

/-- The time in nanoseconds since the epoch. -/
def nowNs (d : Disk) : Int := d.now.toNat * 1000000

/-- The number of symbolic links that a path may lead through. -/
def maxLinks : Nat := 40

/-- The segments of a path after the slash in front of an absolute one. -/
def steps (p : Path) : List Bytes := if p.isAbsolute then p.segments.drop 1 else p.segments

/-- The number of bytes that a name in a folder may have. -/
def maxName : Nat := 255

/-- The number of bytes that a path stays below. -/
def maxPath : Nat := 4096

/-- What a path is followed for: the item that it leads to, the entry of its last name, where a link
is not followed, or a file to be written, where a slash at the back is refused. -/
inductive Aim where
  | item
  | entry
  | file
  deriving DecidableEq, Repr

/-- Follow segments from the end of a trail. Gives the location that they lead to, and the item
there. The last name need not exist. -/
def follow (root : Item) (aim : Aim) : (links : Nat) → Trail → List Bytes →
    Except IoError (Location × Option Item)
  | _, t, [] => .ok (t.location, some (t.item root))
  | links, t, s :: rest =>
    match t.item root with
    | .folder _ es =>
      if s == [] || s == [dot] then follow root aim links t rest
      else if s == [dot, dot] then follow root aim links t.tail rest
      else if aim = .file && !rest.isEmpty && rest.all (· == []) then .error .isFolder
      else if maxName < s.length then .error .nameTooLong
      else
        match es.lookup s with
        | none => if rest.isEmpty then .ok (t.location ++ [s], none) else .error .notFound
        | some (.link target) =>
          if rest.isEmpty && aim = .entry then .ok (t.location ++ [s], some (.link target))
          else
            match links with
            | 0 => .error .tooManyLinks
            | links + 1 =>
              follow root aim links (if target.isAbsolute then [] else t) (steps target ++ rest)
        | some it => follow root aim links ((s, it) :: t) rest
    | _ => .error .notFolder
termination_by links _ segments => (links, segments.length)

/-- The location that a path leads to, and the item there. -/
def walk (d : Disk) (p : Path) (aim : Aim) : Except IoError (Location × Option Item) :=
  if p.bytes.contains 0 then .error .nul
  else if p.bytes == [] then .error .notFound
  else
    match Trail.walk? [] d.root (if p.isAbsolute then [] else d.workingFolder) with
    | none => .error .notFound
    | some t => follow d.root aim maxLinks t (steps p)

/-- Why an operation refuses a path whatever the disk holds. -/
def refused? (p : Path) : Option IoError :=
  if p.bytes.contains 0 then some .nul
  else if maxPath ≤ p.bytes.length then some .nameTooLong
  else none

/-- The location that a path of limited length leads to, and the item there. -/
def resolve (d : Disk) (p : Path) (aim : Aim) : Except IoError (Location × Option Item) :=
  match refused? p with
  | some e => .error e
  | none => d.walk p aim

/-- The path of a location. -/
def pathOf (loc : Location) : Path := ⟨slash :: joinSlashes loc⟩

/-! ### Looking -/

/-- What a path is found to lead to. -/
def existing (found : Except IoError (Location × Option Item)) : Except IoError (Location × Item) :=
  match found with
  | .error e => .error e
  | .ok (loc, some it) => .ok (loc, it)
  | .ok (_, none) => .error .notFound

/-- The item that a path leads to, and its location. -/
def find (d : Disk) (p : Path) (aim : Aim) : Except IoError (Location × Item) :=
  existing (d.resolve p aim)

/-- The item that a path leads to. -/
def item (d : Disk) (p : Path) : Except IoError Item := (d.find p .item).map Prod.snd

/-- Whether a path leads to something. -/
def hasItem (d : Disk) (p : Path) : Bool := (d.item p).isOk

/-- Whether a path leads to a folder. -/
def hasFolder (d : Disk) (p : Path) : Bool :=
  match d.item p with
  | .ok it => it.isFolder
  | .error _ => false

/-- The path without links, dots and needless slashes that leads to the same item. The given path
may be of any length. -/
def canonical (d : Disk) (p : Path) : Except IoError Path :=
  (existing (d.walk p .item)).map fun e => pathOf e.1

/-- The contents of a file. -/
def read (d : Disk) (p : Path) : Except IoError Bytes :=
  match d.item p with
  | .ok (.file b _) => .ok b
  | .ok _ => .error .isFolder
  | .error e => .error e

/-- Nanoseconds since the epoch in whole milliseconds of 64 bits; times before the epoch are 0. -/
def milliseconds (time : Int) : UInt64 := .ofNat (min (time.toNat / 1000000) (UInt64.size - 1))

/-- The time of the last change in milliseconds. -/
def modifiedMs (d : Disk) (p : Path) : Except IoError UInt64 :=
  (d.item p).map fun it => milliseconds it.modified

/-! ### Changing -/

/-- A path without the slashes at its back. -/
def withoutSlashes (p : Path) : Path :=
  let front := (p.bytes.reverse.dropWhile (· == slash)).reverse
  if front.isEmpty then p else ⟨front⟩

/-- The location that a path leads to if the slashes at its back do not count, and the item there. A
link there is not followed. -/
def entry (d : Disk) (p : Path) : Except IoError (Location × Option Item) :=
  match refused? p with
  | some e => .error e
  | none => d.resolve (withoutSlashes p) .entry

/-- Whether the last segment of a path names no entry of its own. -/
def endsInDots (p : Path) : Bool :=
  match (withoutSlashes p).segments.getLast? with
  | some s => s == [dot] || s == [dot, dot]
  | none => false

/-- Whether a path has a slash at its back. -/
def endsInSlash (p : Path) : Bool := p.bytes.getLast? == some slash

/-- Write a file with a time of its last change. -/
def writeAt (d : Disk) (p : Path) (b : Bytes) (time : Int) : Except IoError Disk :=
  match d.resolve p .file with
  | .error e => .error e
  | .ok (_, some (.folder _ _)) => .error .isFolder
  | .ok (loc, some _) => .ok { d with root := Item.change (fun _ => .file b time) loc d.root }
  | .ok (loc, none) => .ok { d with root := d.root.put loc (.file b time) d.nowNs }

/-- Write a file. -/
def write (d : Disk) (p : Path) (b : Bytes) : Except IoError Disk := d.writeAt p b d.nowNs

/-- Create something that does not exist yet. -/
def create (d : Disk) (p : Path) (it : Item) : Except IoError Disk :=
  match d.entry p with
  | .error e => .error e
  | .ok (_, some _) => .error .alreadyExists
  | .ok (loc, none) => .ok { d with root := d.root.put loc it d.nowNs }

/-- Create a folder. -/
def createFolder (d : Disk) (p : Path) : Except IoError Disk := d.create p (.folder d.nowNs [])

/-- Create a symbolic link. A path with a slash at its back names no link. -/
def createLink (d : Disk) (p target : Path) : Except IoError Disk :=
  match refused? target, d.create p (.link target) with
  | some e, _ => .error e
  | none, .ok d => if endsInSlash p then .error .notFound else .ok d
  | none, .error e => .error e

/-- Create a folder after those that it lies in, of which there are at most `fuel`. -/
def createChain : (fuel : Nat) → Path → Disk → Disk × Except IoError Unit
  | 0, _, d => (d, .error noTree)
  | fuel + 1, p, d =>
    if p.bytes == [] then (d, .ok ())
    else
      match d.createFolder p with
      | .ok d => (d, .ok ())
      | .error .notFound =>
        let above : Disk × Except IoError Unit :=
          match p.parent? with
          | some up => createChain fuel up d
          | none => (d, .error noTree)
        match above with
        | (d, .error e) => (d, .error e)
        | (d, .ok ()) =>
          match d.createFolder p with
          | .ok d => (d, .ok ())
          | .error e => (d, if d.hasFolder p then .ok () else .error e)
      | .error e => (d, if d.hasFolder p then .ok () else .error e)
where
  /-- No folder exists to start from. -/
  noTree : IoError := .other "failed to create whole tree"

/-- Create a folder and those that it lies in, as far as they do not exist. -/
def createFolders (d : Disk) (p : Path) : Disk × Except IoError Unit :=
  createChain (p.segments.length + 1) p d

/-- Move a file to a path, in the place of a file there. -/
def rename (d : Disk) (p q : Path) : Except IoError Disk :=
  match d.find p .entry, (if endsInDots q then d.resolve q .entry else d.entry q) with
  | .ok (source, it), .ok (loc, target) =>
    if endsInDots q then .error .busy
    else if endsInSlash q && !it.isFolder then .error .notFolder
    else if target.any Item.isFolder then .error .isFolder
    else if source = loc then .ok d
    else .ok { d with root := (d.root.drop source d.nowNs).put loc it d.nowNs }
  | .error e, _ => .error e
  | _, .error e => .error e

/-- Set the time of the last change. -/
def touch (d : Disk) (p : Path) (time : Int) : Except IoError Disk :=
  (d.find p .item).map fun e => { d with root := Item.change (Item.stamped time) e.1 d.root }

/-- Remove an item with all that it holds. A folder that is named by dots is only emptied. -/
def remove (d : Disk) (p : Path) : Disk × Except IoError Unit :=
  match existing (if endsInDots p then d.resolve p .entry else d.entry p) with
  | .error e => (d, .error e)
  | .ok (loc, it) =>
    if endsInSlash p && !it.isFolder then (d, .error .notFolder)
    else if endsInDots p || loc.isEmpty then
      ({ d with root := Item.change (Item.emptied d.nowNs) loc d.root }, .error .invalid)
    else ({ d with root := d.root.drop loc d.nowNs }, .ok ())

/-! ### Saving -/

/-- A step in saving a file: creating its folder, writing the temporary file, and moving that into
its place. -/
inductive SaveStep where
  | folder
  | temporary
  | target
  deriving DecidableEq, Repr

/-- What a device refuses to do, and why. -/
abbrev Refusal := Path → SaveStep → Option IoError

/-- A change, unless the device refuses it. -/
def attempt (refused : Option IoError) (d : Disk) (result : Except IoError Disk) :
    Disk × Except IoError Unit :=
  match refused, result with
  | some e, _ => (d, .error e)
  | none, .error e => (d, .error e)
  | none, .ok d => (d, .ok ())

/-- The temporary file in which a file is written first. -/
def temporary (p : Path) : Path := p.withExtension "json.tmp"

/-- Save a file: create its folder, write a temporary file and move it into its place. -/
def save (refusal : Refusal) (d : Disk) (p : Path) (b : Bytes) : Disk × Except IoError Unit :=
  let made : Disk × Except IoError Unit :=
    match refusal p .folder, p.parent? with
    | some e, _ => (d, .error e)
    | none, some up => d.createFolders up
    | none, none => (d, .ok ())
  match made with
  | (d, .error e) => (d, .error e)
  | (d, .ok ()) =>
    match attempt (refusal p .temporary) d (d.write (temporary p) b) with
    | (d, .error e) => (d, .error e)
    | (d, .ok ()) => attempt (refusal p .target) d (d.rename (temporary p) p)

end Disk

end SignalAtlas
