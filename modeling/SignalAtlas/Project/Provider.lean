import SignalAtlas.Disk.Basic
import SignalAtlas.Script.Source

/-!
# Providers of scripts

A `Provider` parses files. Besides giving a script it can fail, with a `SourceError`, or crash. The
provider of a grammar reads a file, decodes it and parses it.
-/

namespace SignalAtlas

/-- Why a file gives no script: it cannot be read, is no UTF-8 or has a syntax error, or the
provider is not ready. -/
inductive SourceError where
  | io (e : IoError)
  | encoding (detail : String)
  | parse (e : Script.SyntaxError)
  | init (reason : String)
  deriving DecidableEq, Repr

namespace SourceError

/-- The wording of an error. -/
def message : SourceError → String
  | .io e => "IO error: " ++ e.message
  | .encoding detail => "File is not valid UTF-8: " ++ detail
  | .parse e => s!"Parse error at line {e.line}: {e.reason}"
  | .init reason => "Provider initialization failed: " ++ reason

/-- The line of a syntax error. -/
def line? : SourceError → Option UInt64
  | .parse e => some e.line
  | _ => none

end SourceError

/-- What is known of a crash: it left a message or none. -/
inductive Crash where
  | said (message : String)
  | silent
  deriving DecidableEq, Repr

/-- How an attempt to parse a file ends. -/
inductive Attempt where
  | parsed (s : Script)
  | failed (e : SourceError)
  | crashed (c : Crash)

/-- Something that gets ready and then parses files. It may change the disk. -/
structure Provider where
  init : Except SourceError Unit
  parseFile : Disk → Path → Disk × Attempt

namespace Provider

/-- Read a file as a text. -/
def readText (d : Disk) (p : Path) : Except SourceError String :=
  match d.read p with
  | .error e => .error (.io e)
  | .ok b =>
    match b.text? with
    | some s => .ok s
    | none =>
      let flaw := (Bytes.flaw? b).getD ⟨0, none⟩
      .error (.encoding (p.text ++ ": " ++ flaw.message))

/-- Read a file and parse it. -/
def parseText (g : Grammar) (d : Disk) (p : Path) : Attempt :=
  match readText d p with
  | .error e => .failed e
  | .ok source =>
    match Script.parse g source with
    | .ok s => .parsed s
    | .error e => .failed (.parse e)

/-- The provider of a grammar. -/
def ofGrammar (g : Grammar) : Provider where
  init := .ok ()
  parseFile d p := (d, parseText g d p)

end Provider

end SignalAtlas
