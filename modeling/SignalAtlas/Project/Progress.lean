import SignalAtlas.Project.Outcome

/-!
# Progress

`Progress` counts the files that are done in a scan and collects the events that it sends: one
after every tenth file, and one at the end unless the last one told as much already.
-/

namespace SignalAtlas

/-- The state of the report on a scan: the numbers of files in all and done, the number that was
told last, and the events so far. -/
structure Progress where
  total : Nat
  processed : Nat
  lastTold : Option Nat
  events : List ScanEvent

namespace Progress

/-- The number of files between two events. -/
def interval : Nat := 10

/-- The report on a scan that starts. -/
def start (root : Path) (discovered toParse : Nat) : Progress :=
  ⟨toParse, 0, none, [.started root discovered toParse]⟩

/-- Tell how many files are done. -/
def tell (p : Progress) : Progress :=
  { p with
    lastTold := some p.processed
    events := p.events ++ [.progress p.processed p.total] }

/-- One more file is done. -/
def fileDone (p : Progress) : Progress :=
  let p := { p with processed := p.processed + 1 }
  if p.processed % interval = 0 then p.tell else p

/-- Some more files are done. -/
def filesDone : Nat → Progress → Progress
  | 0, p => p
  | n + 1, p => filesDone n p.fileDone

/-- All files are done. -/
def finish (p : Progress) : Progress := if p.lastTold = some p.processed then p else p.tell

end Progress

end SignalAtlas
