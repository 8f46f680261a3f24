import SignalAtlas.Project.Machine
import SignalAtlas.Signal.Literal
import SignalAtlas.Text.Blank

/-!
# Workers

The number of workers that parse files. A number asked for wins over the one in the environment,
which wins over a default by the number of files and processors. It is never larger than the
number of files.
-/

namespace SignalAtlas

namespace Workers

/-- The environment variable that asks for a number of workers. -/
def variableName : String := "SIGSCOPE_SCAN_WORKERS"

/-- The largest number of workers. -/
def most : Nat := 32

/-- A number of workers within bounds. -/
def clamp (n : Nat) : Nat := max 1 (min n most)

/-- The number that the environment asks for. -/
def ofVariable? (raw : String) : Option Nat :=
  (Literal.word? 10 (Text.trim raw).toList).map clamp

/-- The default for a number of files, before the processors are counted. -/
def tier (files : Nat) : Nat := if files ≤ 64 then 2 else if files ≤ 256 then 4 else 8

/-- The number of workers for some files. -/
def resolve (m : Machine) (files : Nat) (requested : Option Nat) : Nat :=
  let wanted :=
    match requested with
    | some n => clamp n
    | none => (m.workersVariable.bind ofVariable?).getD (max 1 (min (tier files) m.processors))
  max 1 (min wanted files)

end Workers

end SignalAtlas
