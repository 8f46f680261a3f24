import SignalAtlas.Command.Run
import SignalAtlas.Command.Snapshot

/-!
# The command line

The program reads a snapshot of the working folder from standard input, carries out the command of
its arguments, and writes the files that the command has changed.
-/

namespace SignalAtlas

/-- Write a file below the working folder. -/
def writeBack (f : Path × Bytes) : IO Unit := do
  match f.1.parent? with
  | some up => if up.bytes != [] then IO.FS.createDirAll up.text
  | none => pure ()
  IO.FS.writeBinFile f.1.text (ByteArray.mk f.2.toArray)

/-- Carry out a command on a snapshot. -/
def runOn (s : Snapshot) (args : List String) : IO UInt32 := do
  let machine : Machine :=
    { processors := 1
      workersVariable := ← IO.getEnv Workers.variableName
      crashText := fun _ _ => "the parser crashed" }
  let (d, r) := Command.run machine (.ofGrammar s.grammar) s.disk args
  for f in Snapshot.changes s.disk d do
    writeBack f
  IO.print r.stdout
  IO.eprint r.stderr
  return r.exit.toUInt32

end SignalAtlas

/-- Read a snapshot and carry out the command of the arguments on it. -/
def main (args : List String) : IO UInt32 := do
  let input ← (← IO.getStdin).readToEnd
  let json := SignalAtlas.Json.parse? (SignalAtlas.Text.bytes input)
  match json.bind SignalAtlas.Snapshot.ofJson? with
  | some s => SignalAtlas.runOn s args
  | none =>
    IO.eprintln "Error: standard input holds no snapshot"
    return 1
