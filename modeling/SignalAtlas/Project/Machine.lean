import SignalAtlas.Project.Pool

/-!
# Machines

What a scan depends on besides the files and the provider: the number of processors, the
environment, failures of the device, and how workers are run: the order in which their messages
arrive, and the wording of their crashes.
-/

namespace SignalAtlas

/-- The machine that a project is scanned on: its processors, the number of workers that the
environment asks for as it is written, what the device refuses to save, how the messages of workers
arrive, and how crashes of workers are worded. Unless told otherwise nothing is asked for or
refused, and the messages of one worker arrive after those of the other. -/
structure Machine where
  processors : Nat
  workersVariable : Option String := none
  refusal : Disk.Refusal := fun _ _ => none
  arrival : Pool.Arrival := List.flatten
  crashText : Pool.CrashText

end SignalAtlas
