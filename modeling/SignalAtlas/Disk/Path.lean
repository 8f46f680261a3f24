import SignalAtlas.Text.Bytes

/-!
# Paths

A `Path` is a list of bytes in which slashes separate *segments*. What a path names are its
*components*: empty segments and single dots do not count, except for a slash or a dot at the front.
Operations work on segments, so that what they do not touch stays as it was written. Names need not
be texts: `Path.text` is a path as it is shown.

* `Path.join`, `Path.parent?`, `Path.fileName?`, `Path.extension?`, `Path.withExtension`;
* `Path.relativeTo` is the text of the rest of a path after another one, with slashes only.
-/

namespace SignalAtlas

/-- The byte that separates the segments of a path. -/
def slash : UInt8 := 0x2F

/-- The byte of a dot. -/
def dot : UInt8 := 0x2E

/-- The byte of a backslash. -/
def backslash : UInt8 := 0x5C

/-- The parts of bytes between slashes; there is one more than there are slashes. -/
def splitSlashes : Bytes → List Bytes
  | [] => [[]]
  | b :: bs =>
    if b = slash then [] :: splitSlashes bs
    else
      match splitSlashes bs with
      | [] => [[b]]
      | s :: l => (b :: s) :: l

/-- Parts with slashes between them. -/
def joinSlashes : List Bytes → Bytes
  | [] => []
  | [s] => s
  | s :: l => s ++ slash :: joinSlashes l

/-- Whether a list comes before another one or is it, by the first item in which they differ. -/
def lexLe {α : Type} [DecidableEq α] (le : α → α → Bool) : List α → List α → Bool
  | [], _ => true
  | _ :: _, [] => false
  | a :: l, b :: m => if a = b then lexLe le l m else le a b

/-- The name of a file or directory as it is written. -/
structure Path where
  bytes : Bytes
  deriving DecidableEq, Repr, Inhabited

/-- A part of a path that counts: the slash in front of an absolute path, a dot in front of a
relative one, two dots, or anything else. -/
inductive Component where
  | root
  | here
  | up
  | name (s : Bytes)
  deriving DecidableEq, Repr

namespace Component

/-- The rank of the sort of a component. -/
def rank : Component → Nat
  | .root => 0
  | .here => 1
  | .up => 2
  | .name _ => 3

/-- Components by their sort, names among each other byte by byte. -/
def le : Component → Component → Bool
  | .name a, .name b => lexLe (fun x y => decide (x ≤ y)) a b
  | a, b => a.rank ≤ b.rank

end Component

namespace Path

/-- The path as it is shown. -/
def text (p : Path) : String := p.bytes.lossy

/-- The path that a text names. -/
def ofText (s : String) : Path := ⟨Text.bytes s⟩

/-- The segments of a path. -/
def segments (p : Path) : List Bytes := splitSlashes p.bytes

/-- The path with given segments. -/
def ofSegments (l : List Bytes) : Path := ⟨joinSlashes l⟩

/-- Whether a segment counts as a component. -/
def counts (s : Bytes) : Bool := s != [] && s != [dot]

/-- The component of a segment that counts. -/
def component (s : Bytes) : Component := if s == [dot, dot] then .up else .name s

/-- The components of the segments after the first one. -/
def inner (l : List Bytes) : List Component := (l.filter counts).map component

/-- The components of a path. -/
def components (p : Path) : List Component :=
  match p.segments with
  | [] => []
  | [s] => if s == [dot] then [.here] else inner [s]
  | s :: l =>
    if s == [] then .root :: inner l
    else if s == [dot] then .here :: inner l
    else inner (s :: l)

/-- Whether a path starts at the root. -/
def isAbsolute (p : Path) : Bool := p.bytes.head? == some slash

/-- Whether two paths have the same components. -/
def same (p q : Path) : Bool := p.components == q.components

/-- Whether a path comes before another one or is it, component by component. -/
def le (p q : Path) : Bool := lexLe Component.le p.components q.components

/-- A path below another one; an absolute path stands for itself. -/
def join (p : Path) (q : Bytes) : Path :=
  if isAbsolute ⟨q⟩ || p.bytes == [] then ⟨q⟩
  else if p.bytes.getLast? == some slash then ⟨p.bytes ++ q⟩
  else ⟨p.bytes ++ slash :: q⟩

/-! ### Ends of paths -/

/-- The segments without those at the back that do not count. -/
def trimBack (l : List Bytes) : List Bytes := (l.reverse.dropWhile fun s => !counts s).reverse

/-- The segments that reach to the last component, split before that component. The slash or dot in
front belongs to the first part. -/
def splitLast? (p : Path) : Option (List Bytes × Bytes) :=
  let body := trimBack p.segments
  match body.getLast? with
  | some last => some (body.dropLast, last)
  | none => none

/-- The last component, if it is a name. -/
def fileName? (p : Path) : Option Bytes :=
  match p.splitLast? with
  | some (_, last) => if last == [dot, dot] then none else some last
  | none => none

/-- The path of segments before the last component: what does not count is left off its end. -/
def ofFront (l : List Bytes) : Path :=
  match l with
  | [] => ⟨[]⟩
  | first :: rest =>
    let rest := trimBack rest
    if rest.isEmpty then ⟨if first == [] then [slash] else first⟩ else ofSegments (first :: rest)

/-- The path without its last component. -/
def parent? (p : Path) : Option Path :=
  match p.splitLast? with
  | some (front, _) => some (ofFront front)
  | none => if p.components == [.here] then some ⟨[]⟩ else none

/-! ### Extensions -/

/-- The parts of a file name before and after its last dot. A dot at the front does not count. -/
def splitExtension (name : Bytes) : Bytes × Option Bytes :=
  let back := name.reverse
  let after := (back.takeWhile (· != dot)).reverse
  match back.dropWhile (· != dot) with
  | [] => (name, none)
  | [_] => (name, none)
  | _ :: before => (before.reverse, some after)

/-- The part of the file name after its last dot. -/
def extension? (p : Path) : Option Bytes := p.fileName?.bind fun name => (splitExtension name).2

/-- The path with the file name up to its last dot followed by an extension; a path without a file
name stays. -/
def setExtension (p : Path) (extension : Bytes) : Path :=
  match p.splitLast? with
  | some (front, last) =>
    if last == [dot, dot] then p
    else ofSegments (front ++ [(splitExtension last).1 ++ dot :: extension])
  | none => p

/-- The path without as many bytes at its back as its extension has. -/
def cutExtension (p : Path) : Path :=
  match p.extension? with
  | some e => ⟨p.bytes.take (p.bytes.length - e.length)⟩
  | none => p

/-- The path with another extension. The old one is cut off first: of two dots with an extension the
dots are left, which are no file name. -/
def withExtension (p : Path) (extension : Bytes) : Path := p.cutExtension.setExtension extension

/-- The extension of scripts. -/
def scriptExtension : String := "gd"

/-- Whether a path names a script: its extension is a text, and that of scripts in any case. -/
def isScript (p : Path) : Bool :=
  (p.extension?.bind Bytes.text?).any fun e => e.toLower == scriptExtension

/-! ### Relative paths -/

/-- The segments after the first one that counts. -/
def afterFirst : List Bytes → List Bytes
  | [] => []
  | s :: l => if counts s then l else afterFirst l

/-- Segments without those at the front and at the back that do not count. -/
def trimSegments (l : List Bytes) : List Bytes := trimBack (l.dropWhile fun s => !counts s)

/-- The segments left after removing as many components as there are in a list. -/
def afterComponents : List Component → List Bytes → List Bytes
  | [], l => l
  | _ :: cs, l => afterComponents cs (afterFirst l)

/-- The rest of a path after the components of another one in front of it. -/
def stripPrefix? (p root : Path) : Option Path :=
  if root.components.isPrefixOf p.components then
    match root.components, p.segments with
    | [], [_] => some p
    | [], l => some (ofFront l)
    | .root :: cs, _ :: l => some (ofSegments (trimSegments (afterComponents cs l)))
    | .here :: cs, _ :: l => some (ofSegments (trimSegments (afterComponents cs l)))
    | cs, l => some (ofSegments (trimSegments (afterComponents cs l)))
  else none

/-- A text with slashes in place of backslashes. -/
def slashed (s : String) : String := .ofList (s.toList.map fun c => if c = '\\' then '/' else c)

/-- The text of a path relative to another one if it lies below it, with slashes in place of
backslashes. Different paths may have one such text: bytes that are no text are replaced in it. -/
def relativeTo (p root : Path) : String := slashed ((p.stripPrefix? root).getD p).text

end Path

end SignalAtlas
