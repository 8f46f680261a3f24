import SignalAtlas.Disk.Basic

/-!
# Discovery

`Disk.scripts` finds the scripts of a project: all regular files below its folder whose extension is
that of scripts. Hidden folders, folders with foreign code and, directly below the project's folder,
those with generated files are left out. Symbolic links are not followed, except at the path where
the search starts.
-/

namespace SignalAtlas

namespace Discovery

/-- Folders with foreign code or history, left out wherever they are. -/
def foreignFolders : List String := ["addons", "node_modules", ".git", ".svn", ".hg"]

/-- Folders with generated files, left out directly below the project's folder. -/
def generatedFolders : List String := [".godot", ".import", "build", ".cache", "target"]

/-- Whether a folder is left out by its name as it is shown; `top` tells that it lies directly below
the project's folder. -/
def leftOut (top : Bool) (name : Bytes) : Bool :=
  let shown := name.lossy
  shown.toList.head? == some '.' || foreignFolders.contains shown ||
    (top && generatedFolders.contains shown)

mutual

/-- The locations of the scripts among the entries of a folder. -/
def below (top : Bool) : List (Bytes × Item) → List Location
  | [] => []
  | (name, it) :: es => (scriptsOf top name it).map (name :: ·) ++ below top es

/-- The locations of the scripts that a named item is or holds, from that item on. -/
def scriptsOf (top : Bool) (name : Bytes) : Item → List Location
  | .file _ _ => if Path.isScript ⟨name⟩ then [[]] else []
  | .link _ => []
  | .folder _ es => if leftOut top name then [] else below false es

end

/-- The path of a location below a folder. -/
def pathBelow (root : Path) (loc : Location) : Path := loc.foldl Path.join root

end Discovery

/-- The scripts at or below a path, component by component in increasing order. -/
def Disk.scripts (d : Disk) (root : Path) : List Path :=
  match d.item root with
  | .ok (.folder _ es) =>
    ((Discovery.below true es).map (Discovery.pathBelow root)).mergeSort Path.le
  | .ok (.file _ _) => if root.isScript then [root] else []
  | _ => []

end SignalAtlas
