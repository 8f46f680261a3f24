import SignalAtlas.SortedMap

/-!
# Facts about signals

A script declares signals, emits them and connects handlers to them. Each such place is a `Fact`;
`FileSignals` holds the facts of one file, by sort.
-/

namespace SignalAtlas

/-- A declaration `signal name(params)` on a line of a file, counted from one and relative to the
project. `paramTypes` has the types of the parameters that have one, and is absent if none has;
`source` is the text of the declaration. -/
structure Definition where
  name : String
  params : List String
  paramTypes : Option (SortedMap String String)
  filePath : String
  line : UInt64
  source : String

/-- A call that emits a signal. The emitter and the arguments are as written; the emitter is `self`
where there is none, and the name of the signal is no argument. -/
structure Emission where
  signalName : String
  filePath : String
  line : UInt64
  emitter : String
  args : List String
  deriving DecidableEq

/-- A call that connects a handler to a signal. `target` is the owner of the signal, where it can be
named without evaluating anything, and `flags` are the names of the connection's flags. -/
structure Connection where
  signalName : String
  filePath : String
  line : UInt64
  target : Option String
  handler : String
  flags : List String
  isLambda : Bool
  deriving DecidableEq

/-- A fact about a signal: it is declared, it is emitted, or a handler is connected to it. -/
inductive Fact where
  | definition (d : Definition)
  | emission (e : Emission)
  | connection (c : Connection)

namespace Fact

/-- The signal that a fact is about. -/
def signalName : Fact → String
  | .definition d => d.name
  | .emission e => e.signalName
  | .connection c => c.signalName

/-- The file that a fact comes from. -/
def filePath : Fact → String
  | .definition d => d.filePath
  | .emission e => e.filePath
  | .connection c => c.filePath

/-- The definition that a fact is. -/
def definition? : Fact → Option Definition
  | .definition d => some d
  | _ => none

/-- The emission that a fact is. -/
def emission? : Fact → Option Emission
  | .emission e => some e
  | _ => none

/-- The connection that a fact is. -/
def connection? : Fact → Option Connection
  | .connection c => some c
  | _ => none

end Fact

/-- The facts of one file in order, by sort. The path is relative to the project. -/
structure FileSignals where
  filePath : String
  definitions : List Definition
  emissions : List Emission
  connections : List Connection

namespace FileSignals

/-- A file without facts. -/
def empty (filePath : String) : FileSignals := ⟨filePath, [], [], []⟩

/-- Whether a file has no facts. -/
def isEmpty (f : FileSignals) : Bool :=
  f.definitions.isEmpty && f.emissions.isEmpty && f.connections.isEmpty

/-- The number of facts of a file. -/
def factCount (f : FileSignals) : Nat :=
  f.definitions.length + f.emissions.length + f.connections.length

/-- The facts of a file: the declarations, then the emissions, then the connections. -/
def facts (f : FileSignals) : List Fact :=
  f.definitions.map .definition ++ f.emissions.map .emission ++ f.connections.map .connection

/-- Add a fact behind those of its sort. -/
def push (f : FileSignals) : Fact → FileSignals
  | .definition d => { f with definitions := f.definitions ++ [d] }
  | .emission e => { f with emissions := f.emissions ++ [e] }
  | .connection c => { f with connections := f.connections ++ [c] }

/-- A file with the given facts, each behind the earlier ones of its sort. -/
def ofFacts (filePath : String) (facts : List Fact) : FileSignals :=
  ⟨filePath, facts.filterMap Fact.definition?, facts.filterMap Fact.emission?,
    facts.filterMap Fact.connection?⟩

end FileSignals

end SignalAtlas
