import SignalAtlas.Project.Outcome
import SignalAtlas.Project.Provider

/-!
# Parsing many files

`Pool.serial` parses files one after the other. `Pool.parallel` divides them into contiguous chunks,
one for each worker; the messages of the workers may reach the receiver in any order that keeps the
order of each worker's own (`Pool.Interleaves`), so that order is an argument.

A crash costs the file at which it happens. In a worker it also costs the files of the chunk that
come after it; how such a crash is worded is left to what runs the workers, and so it is another
argument.
-/

namespace SignalAtlas

/-- A file to be parsed. -/
structure Job where
  path : Path
  relativePath : String
  deriving DecidableEq

/-- A file that is parsed, with the time of its last change in milliseconds since the epoch. -/
structure ParsedFile where
  script : Script
  path : Path
  relativePath : String
  sizeBytes : Nat
  mtime : UInt64

/-- The files that are parsed and those that are dropped. -/
structure PoolResult where
  parsed : List ParsedFile
  errors : List FileError

/-- The result in the order of relative paths. -/
def PoolResult.sorted (r : PoolResult) : PoolResult :=
  ⟨r.parsed.mergeSort fun a b => a.relativePath ≤ b.relativePath,
    r.errors.mergeSort fun a b => a.relativePath ≤ b.relativePath⟩

namespace Pool

/-- What becomes of a file. -/
inductive Message where
  | parsed (f : ParsedFile)
  | failed (e : FileError)

namespace Message

/-- The path of the file. -/
def path : Message → Path
  | .parsed f => f.path
  | .failed e => e.path

/-- The parsed file. -/
def parsed? : Message → Option ParsedFile
  | .parsed f => some f
  | .failed _ => none

/-- The dropped file. -/
def failed? : Message → Option FileError
  | .parsed _ => none
  | .failed e => some e

end Message

/-- The result that messages make up, in their order. -/
def ofMessages (l : List Message) : PoolResult :=
  ⟨l.filterMap Message.parsed?, l.filterMap Message.failed?⟩

/-- Drop the file of a job. -/
def dropped (j : Job) (kind : FileErrorKind) (message : String) : FileError :=
  ⟨j.path, j.relativePath, kind, message⟩

/-- The kind of a dropped file by the error of its provider. -/
def kindOf : SourceError → FileErrorKind
  | .io _ => .io
  | .encoding _ => .encoding
  | .parse _ => .parse
  | .init _ => .parse

/-- The size of an item. -/
def sizeOfItem : Item → Nat
  | .file b _ => b.length
  | _ => 0

/-- Parse the file of a job: a message, or a crash. -/
def parseOne (p : Provider) (d : Disk) (j : Job) : Disk × Except Crash Message :=
  match d.item j.path with
  | .error e => (d, .ok (.failed (dropped j .io e.message)))
  | .ok it =>
    match p.parseFile d j.path with
    | (d, .parsed s) =>
      (d, .ok (.parsed ⟨s, j.path, j.relativePath, sizeOfItem it, Disk.milliseconds it.modified⟩))
    | (d, .failed e) => (d, .ok (.failed (dropped j (kindOf e) e.message)))
    | (d, .crashed c) => (d, .error c)

/-! ### One after the other -/

/-- The message for a crash while parsing in turn. -/
def crashMessage : Crash → String
  | .said message => "Provider panicked: " ++ message
  | .silent => "Provider panicked: unknown panic"

/-- Parse files in turn. -/
def serialMessages (p : Provider) : Disk → List Job → Disk × List Message
  | d, [] => (d, [])
  | d, j :: js =>
    match parseOne p d j with
    | (d, outcome) =>
      let message :=
        match outcome with
        | .ok m => m
        | .error c => .failed (dropped j .workerCrashed (crashMessage c))
      let (d, rest) := serialMessages p d js
      (d, message :: rest)

/-- Parse files in turn; each of them is done once. -/
def serial (p : Provider) (d : Disk) (js : List Job) : Disk × PoolResult × Nat :=
  let (d, messages) := serialMessages p d js
  (d, ofMessages messages, messages.length)

/-! ### By workers -/

/-- Contiguous chunks of a size. -/
def chunks {α : Type} (size : Nat) (l : List α) : List (List α) :=
  match l with
  | [] => []
  | a :: l => (a :: l.take (size - 1)) :: chunks size (l.drop (size - 1))
termination_by l.length
decreasing_by simp only [List.length_drop, List.length_cons]; omega

/-- The chunks in turn are the list. -/
theorem flatten_chunks {α : Type} (size : Nat) (l : List α) : (chunks size l).flatten = l := by
  fun_induction chunks size l with
  | case1 => rfl
  | case2 a l ih => rw [List.flatten_cons, ih, List.cons_append, List.take_append_drop]

/-- A quotient rounded up. -/
def ceilDiv (a b : Nat) : Nat := (a + b - 1) / b

/-- The chunks of jobs for a number of workers. -/
def chunksFor (workers : Nat) (js : List Job) : List (List Job) :=
  chunks (ceilDiv js.length (max workers 1)) js

/-- What a worker does with its chunk: the messages that it sends, and the crash that ends it. -/
structure Transcript where
  jobs : List Job
  messages : List Message
  crash : Option Crash

/-- Parse the files of a chunk up to a crash. -/
def work (p : Provider) : Disk → List Job → Disk × List Message × Option Crash
  | d, [] => (d, [], none)
  | d, j :: js =>
    match parseOne p d j with
    | (d, .error c) => (d, [], some c)
    | (d, .ok m) =>
      let (d, messages, crash) := work p d js
      (d, m :: messages, crash)

/-- The transcripts of workers that start one after the other. -/
def transcripts (p : Provider) : Disk → List (List Job) → Disk × List Transcript
  | d, [] => (d, [])
  | d, chunk :: rest =>
    let (d, messages, crash) := work p d chunk
    let (d, others) := transcripts p d rest
    (d, ⟨chunk, messages, crash⟩ :: others)

/-- How the crash of a worker is worded, by the chunk of the worker. -/
abbrev CrashText := List Job → Crash → String

/-- The message for a crash of a worker. -/
def workerMessage (text : CrashText) (chunk : List Job) (c : Crash) : String :=
  "Worker panicked: " ++ text chunk c

/-- The files of a worker that crashed which no message told of. -/
def lost (text : CrashText) (reported : List Path) (t : Transcript) : List FileError :=
  match t.crash with
  | none => []
  | some c =>
    (t.jobs.filter fun j => !reported.any fun q => q.same j.path).map fun j =>
      dropped j .workerCrashed (workerMessage text t.jobs c)

/-- The result of workers whose messages reach the receiver in a given order, and the number of
files that are done. -/
def collect (text : CrashText) (workers : List Transcript) (arrivals : List Message) :
    PoolResult × Nat :=
  let told := ofMessages arrivals
  let untold := workers.flatMap (lost text (arrivals.map Message.path))
  (PoolResult.sorted ⟨told.parsed, told.errors ++ untold⟩, arrivals.length + untold.length)

/-- A way in which the messages of several workers reach the receiver. -/
abbrev Arrival := List (List Message) → List Message

/-- Some lists merged into one that keeps the order of each: the head of any of them may come
first. -/
inductive Interleaves {α : Type} : List (List α) → List α → Prop
  | nil {ls : List (List α)} (h : ∀ l ∈ ls, l = []) : Interleaves ls []
  | cons {before after : List (List α)} {a : α} {l m : List α}
      (h : Interleaves (before ++ l :: after) m) :
      Interleaves (before ++ (a :: l) :: after) (a :: m)

/-- Parse files by workers. -/
def parallel (arrival : Arrival) (text : CrashText) (p : Provider) (d : Disk) (js : List Job)
    (workers : Nat) : Disk × PoolResult × Nat :=
  let (d, ts) := transcripts p d (chunksFor workers js)
  let (result, done) := collect text ts (arrival (ts.map Transcript.messages))
  (d, result, done)

end Pool

end SignalAtlas
