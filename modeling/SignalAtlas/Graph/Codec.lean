import SignalAtlas.Graph.Basic
import SignalAtlas.Json.Basic

/-!
# Graphs as JSON

Each type of facts and graphs has a JSON form. `…toJson` writes it, leaving out what is absent, and
`…ofJson?` reads it: all other fields are required, counts are whole numbers of 64 bits (the schema
version of 32), and a record may also be given as the list of its fields.
-/

namespace SignalAtlas

namespace Definition

/-- The fields that are written for a definition. -/
def toMembers (d : Definition) : List (String × Json) :=
  [("name", .string d.name), ("params", .strings d.params)] ++
    (match d.paramTypes with
    | some types => [("paramTypes", .ofMap .string types)]
    | none => []) ++
    [("filePath", .string d.filePath), ("line", .word64 d.line), ("source", .string d.source)]

/-- Read a definition. -/
def ofJson? (j : Json) : Option Definition :=
  match j.fields? ["name", "params", "paramTypes", "filePath", "line", "source"] with
  | some [some name, some params, paramTypes, some filePath, some line, some source] => do
    let name ← name.string?
    let params ← params.list? Json.string?
    let paramTypes ← Json.optional? (Json.map? Json.string?) paramTypes
    let filePath ← filePath.string?
    let line ← line.word64?
    let source ← source.string?
    return { name, params, paramTypes, filePath, line, source }
  | _ => none

end Definition

namespace Emission

/-- The fields that are written for an emission. -/
def toMembers (e : Emission) : List (String × Json) :=
  [("signalName", .string e.signalName), ("filePath", .string e.filePath), ("line", .word64 e.line),
    ("emitter", .string e.emitter), ("args", .strings e.args)]

/-- Read an emission. -/
def ofJson? (j : Json) : Option Emission :=
  match j.fields? ["signalName", "filePath", "line", "emitter", "args"] with
  | some [some signalName, some filePath, some line, some emitter, some args] => do
    let signalName ← signalName.string?
    let filePath ← filePath.string?
    let line ← line.word64?
    let emitter ← emitter.string?
    let args ← args.list? Json.string?
    return { signalName, filePath, line, emitter, args }
  | _ => none

end Emission

namespace Connection

/-- The fields that are written for a connection. -/
def toMembers (c : Connection) : List (String × Json) :=
  [("signalName", .string c.signalName), ("filePath", .string c.filePath),
    ("line", .word64 c.line)] ++
    (match c.target with
    | some target => [("target", .string target)]
    | none => []) ++
    [("handler", .string c.handler), ("flags", .strings c.flags), ("isLambda", .bool c.isLambda)]

/-- Read a connection. -/
def ofJson? (j : Json) : Option Connection :=
  match j.fields? ["signalName", "filePath", "line", "target", "handler", "flags", "isLambda"] with
  | some [some signalName, some filePath, some line, target, some handler, some flags,
      some isLambda] => do
    let signalName ← signalName.string?
    let filePath ← filePath.string?
    let line ← line.word64?
    let target ← Json.optional? Json.string? target
    let handler ← handler.string?
    let flags ← flags.list? Json.string?
    let isLambda ← isLambda.bool?
    return { signalName, filePath, line, target, handler, flags, isLambda }
  | _ => none

end Connection

/-- The JSON form of a definition. -/
def Definition.toJson (d : Definition) : Json := .object d.toMembers

/-- The JSON form of an emission. -/
def Emission.toJson (e : Emission) : Json := .object e.toMembers

/-- The JSON form of a connection. -/
def Connection.toJson (c : Connection) : Json := .object c.toMembers

namespace Fact

/-- The JSON form of a fact: its own, with its sort in front. -/
def toJson : Fact → Json
  | .definition d => .object (("kind", .string "definition") :: d.toMembers)
  | .emission e => .object (("kind", .string "emission") :: e.toMembers)
  | .connection c => .object (("kind", .string "connection") :: c.toMembers)

/-- Read a fact. -/
def ofJson? (j : Json) : Option Fact :=
  match j.member? "kind" with
  | some (.string kind) =>
    if kind == "definition" then (Definition.ofJson? j).map .definition
    else if kind == "emission" then (Emission.ofJson? j).map .emission
    else if kind == "connection" then (Connection.ofJson? j).map .connection
    else none
  | _ => none

end Fact

namespace FileSignals

/-- The JSON form of the facts of a file. -/
def toJson (f : FileSignals) : Json :=
  .object
    [("filePath", .string f.filePath), ("definitions", .array (f.definitions.map (·.toJson))),
      ("emissions", .array (f.emissions.map (·.toJson))),
      ("connections", .array (f.connections.map (·.toJson)))]

/-- Read the facts of a file. -/
def ofJson? (j : Json) : Option FileSignals :=
  match j.fields? ["filePath", "definitions", "emissions", "connections"] with
  | some [some filePath, some definitions, some emissions, some connections] => do
    let filePath ← filePath.string?
    let definitions ← definitions.list? Definition.ofJson?
    let emissions ← emissions.list? Emission.ofJson?
    let connections ← connections.list? Connection.ofJson?
    return { filePath, definitions, emissions, connections }
  | _ => none

end FileSignals

namespace Metadata

/-- The JSON form of metadata. -/
def toJson (m : Metadata) : Json :=
  .object
    [("schemaVersion", .word32 m.schemaVersion), ("timestamp", .word64 m.timestamp),
      ("fileCount", .nat m.fileCount), ("signalCount", .nat m.signalCount),
      ("emissionCount", .nat m.emissionCount), ("connectionCount", .nat m.connectionCount)]

/-- Read metadata. -/
def ofJson? (j : Json) : Option Metadata :=
  match j.fields? ["schemaVersion", "timestamp", "fileCount", "signalCount", "emissionCount",
    "connectionCount"] with
  | some [some schemaVersion, some timestamp, some fileCount, some signalCount,
      some emissionCount, some connectionCount] => do
    let schemaVersion ← schemaVersion.word32?
    let timestamp ← timestamp.word64?
    let fileCount ← fileCount.count?
    let signalCount ← signalCount.count?
    let emissionCount ← emissionCount.count?
    let connectionCount ← connectionCount.count?
    return { schemaVersion, timestamp, fileCount, signalCount, emissionCount, connectionCount }
  | _ => none

end Metadata

namespace Graph

/-- The JSON form of a graph. -/
def toJson (g : Graph) : Json :=
  .object
    [("definitions", .ofMap (fun l => .array (l.map Definition.toJson)) g.definitions),
      ("emissions", .ofMap (fun l => .array (l.map Emission.toJson)) g.emissions),
      ("connections", .ofMap (fun l => .array (l.map Connection.toJson)) g.connections),
      ("metadata", g.metadata.toJson)]

/-- Read a graph. -/
def ofJson? (j : Json) : Option Graph :=
  match j.fields? ["definitions", "emissions", "connections", "metadata"] with
  | some [some definitions, some emissions, some connections, some metadata] => do
    let definitions ← definitions.map? (Json.list? Definition.ofJson?)
    let emissions ← emissions.map? (Json.list? Emission.ofJson?)
    let connections ← connections.map? (Json.list? Connection.ofJson?)
    let metadata ← Metadata.ofJson? metadata
    return { definitions, emissions, connections, metadata }
  | _ => none

end Graph

end SignalAtlas
