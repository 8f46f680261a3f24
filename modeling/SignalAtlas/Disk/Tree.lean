import SignalAtlas.Disk.Path

/-!
# Trees of files

An `Item` is a file, a symbolic link or a folder of named items. A *location* is the list of the
names that lead to an item; it goes through folders only.

* `Item.at?` finds the item at a location;
* `Item.put` and `Item.drop` change one entry of a folder, `Item.change` any item in its place;
* a `Trail` holds the items on the way to a location, so that one can walk on from there.
-/

namespace SignalAtlas

/-- What a name in a folder stands for: a file, a symbolic link to a path, or a folder. Times of the
last change are nanoseconds since the epoch. -/
inductive Item where
  | file (bytes : Bytes) (modified : Int)
  | link (target : Path)
  | folder (modified : Int) (entries : List (Bytes × Item))
  deriving Inhabited

/-- The names that lead from the top to an item. -/
abbrev Location := List Bytes

namespace Item

/-- Whether an item is a folder. -/
def isFolder : Item → Bool
  | .folder _ _ => true
  | _ => false

/-- The entries of a folder. -/
def entries : Item → List (Bytes × Item)
  | .folder _ es => es
  | _ => []

/-- The time of the last change. -/
def modified : Item → Int
  | .file _ t => t
  | .folder t _ => t
  | .link _ => 0

/-- The item at a location. -/
def at? : Item → Location → Option Item
  | it, [] => some it
  | .folder _ es, name :: rest =>
    match es.lookup name with
    | some it => it.at? rest
    | none => none
  | _, _ :: _ => none

/-- Change the item at a location, if there is one. -/
def change (f : Item → Item) : Location → Item → Item
  | [], it => f it
  | name :: rest, .folder t es =>
    .folder t (es.map fun e => if e.1 = name then (e.1, change f rest e.2) else e)
  | _ :: _, it => it

/-- Bind a name in a list of entries, in the place of an earlier one. -/
def setEntry (name : Bytes) (it : Item) : List (Bytes × Item) → List (Bytes × Item)
  | [] => [(name, it)]
  | e :: es => if e.1 = name then (name, it) :: es else e :: setEntry name it es

/-- Bind a name in a folder. -/
def withEntry (name : Bytes) (it : Item) (now : Int) : Item → Item
  | .folder _ es => .folder now (setEntry name it es)
  | other => other

/-- Unbind a name in a folder. -/
def withoutEntry (name : Bytes) (now : Int) : Item → Item
  | .folder _ es => .folder now (es.filter fun e => e.1 ≠ name)
  | other => other

/-- A folder without entries in the place of one with them. -/
def emptied (now : Int) : Item → Item
  | .folder _ _ => .folder now []
  | other => other

/-- An item with another time of its last change. -/
def stamped (time : Int) : Item → Item
  | .file b _ => .file b time
  | .folder _ es => .folder time es
  | .link target => .link target

/-- Put an item at a location whose parent is a folder. -/
def put (root : Item) (loc : Location) (it : Item) (now : Int) : Item :=
  match loc.getLast? with
  | some name => change (withEntry name it now) loc.dropLast root
  | none => it

/-- Drop the item at a location. -/
def drop (root : Item) (loc : Location) (now : Int) : Item :=
  match loc.getLast? with
  | some name => change (withoutEntry name now) loc.dropLast root
  | none => root.emptied now

end Item

/-- The names on the way from the top to an item, each with what it stands for, last one first. -/
abbrev Trail := List (Bytes × Item)

namespace Trail

/-- The location at the end of a trail. -/
def location (t : Trail) : Location := (t.map Prod.fst).reverse

/-- The item at the end of a trail that starts at an item. -/
def item (root : Item) : Trail → Item
  | [] => root
  | e :: _ => e.2

/-- Walk on from a trail to a location below its end, whose item is given. -/
def walk? : Trail → Item → Location → Option Trail
  | t, _, [] => some t
  | t, here, name :: rest =>
    match here.entries.lookup name with
    | some it => walk? ((name, it) :: t) it rest
    | none => none

end Trail

end SignalAtlas
