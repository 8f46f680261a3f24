import SignalAtlas.Script.Cursor
import SignalAtlas.Text.Blank
import SignalAtlas.Text.Bytes

/-!
# Scripts

A `Script` is a source text with its syntax tree. `Script.check` accepts a tree without syntax
errors and else says what is wrong at the first faulty node.

The grammar itself is a parameter: a `Grammar` gives the tree of every source text.
-/

namespace SignalAtlas

/-- A parsed text: its tree, and whether the tree holds a syntax error. -/
structure Parse where
  root : Node
  hasError : Bool
  deriving Inhabited

/-- A grammar gives the tree of every source text. -/
abbrev Grammar := String → Parse

/-- A source text with its syntax tree. -/
structure Script where
  source : String
  root : Node
  deriving Inhabited

namespace Script

/-- The text of a node. -/
def text (s : Script) (n : Node) : String := Text.slice s.source n.tag.start n.tag.stop

/-- The text from the start of a node to the end of another one. -/
def spanText (s : Script) (first last : Node) : String :=
  Text.slice s.source first.tag.start last.tag.stop

/-- The significant nodes in document order. -/
def walk (s : Script) : List Node :=
  (s.root.visits fun _ => true).filter Node.significant

/-- The significant nodes of a kind in document order. -/
def nodesOfKind (s : Script) (kind : String) : List Node :=
  s.walk.filter fun n => n.kind == kind

/-- The first faulty node of a tree in document order. -/
def firstFault? (root : Node) : Option Node :=
  (root.visits fun n => !n.faulty).getLast?.filter Node.faulty

/-! ### Syntax errors -/

/-- What is wrong with the syntax of a line, counted from one. -/
structure SyntaxError where
  line : UInt64
  reason : String
  deriving DecidableEq, Repr

/-- The longest part of the offending text that is shown, in characters. -/
def snippetLength : Nat := 40

/-- The first line of a text without the blanks around it, cut off where it is long. -/
def snippet (text : String) : String :=
  let first := Text.trim (.ofList (text.toList.takeWhile (· != '\n')))
  if snippetLength < first.length then .ofList (first.toList.take snippetLength) ++ "..."
  else first

/-- What is wrong with a source text whose tree has a syntax error. -/
def syntaxError (source : String) (root : Node) : SyntaxError :=
  match firstFault? root with
  | none => ⟨1, "syntax error"⟩
  | some n =>
    if n.tag.missing then ⟨n.line, "missing `" ++ n.kind ++ "`"⟩
    else ⟨n.line, "unexpected `" ++ snippet (text ⟨source, root⟩ n) ++ "`"⟩

/-- The script of a source text and its tree, unless there is a syntax error. -/
def check (source : String) (p : Parse) : Except SyntaxError Script :=
  if p.hasError then .error (syntaxError source p.root) else .ok ⟨source, p.root⟩

/-- A text without the byte order mark in front. -/
def withoutMark (s : String) : String :=
  match s.toList with
  | '\uFEFF' :: cs => .ofList cs
  | _ => s

/-- Parse a source text as it is. -/
def parseExact (g : Grammar) (source : String) : Except SyntaxError Script :=
  check source (g source)

/-- Parse a source text after removing a byte order mark. -/
def parse (g : Grammar) (source : String) : Except SyntaxError Script :=
  parseExact g (withoutMark source)

end Script

end SignalAtlas
