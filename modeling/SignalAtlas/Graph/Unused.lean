import SignalAtlas.Decimal.Binary
import SignalAtlas.Graph.Basic
import SignalAtlas.RunSort

/-!
# Unused signals

A signal is used if it is emitted somewhere and connected somewhere. `Graph.unused?` reports the
names that lack one of these, with a confidence that the signal can be dropped: a `Policy` gives
the confidence of each pattern and what lowers it.

Reports are sorted by falling confidence and then by name. A policy may give confidences that are no
numbers; they have no place in that order, and with many reports the search can fail because of
them.
-/

namespace SignalAtlas

/-- How a signal fails to be used: it is connected and never emitted, emitted and never connected,
or neither. -/
inductive Pattern where
  | orphan
  | deadEmitter
  | isolated
  deriving DecidableEq, Repr

/-- The confidence of reports: one for each pattern, and what a name with an underscore in front, a
second declaration or a missing one takes off. No report is lowered below `floor`. -/
structure Policy where
  isolated : Float := 1.0
  orphan : Float := 0.95
  deadEmitter : Float := 0.90
  privatePenalty : Float := 0.15
  duplicatePenalty : Float := 0.10
  undeclaredPenalty : Float := 0.20
  floor : Float := 0.50

/-- A signal that is not used, with the confidence that it can be dropped. -/
structure UnusedReport where
  signalName : String
  pattern : Pattern
  confidence : Float
  reason : String

/-- The counts of a search for unused signals: the names looked at, the reports by pattern and in
all, the time taken in milliseconds, and the mean confidence. -/
structure UnusedStats where
  signalsAnalyzed : Nat := 0
  orphansFound : Nat := 0
  deadEmittersFound : Nat := 0
  isolatedFound : Nat := 0
  totalUnused : Nat := 0
  durationMs : Nat := 0
  avgConfidence : Float := 0

/-- The reports of a search for unused signals in order, and their counts. -/
structure UnusedResult where
  reports : List UnusedReport
  stats : UnusedStats

namespace Unused

/-- A number rounded to two decimal places; a half goes away from zero. -/
def round2 (x : Float) : Float := Binary.nearestWhole (x * 100) / 100

/-- The larger of two numbers, the second of equal ones; one that is no number does not count. -/
def larger (x y : Float) : Float :=
  if x.isNaN then y else if y.isNaN then x else if y < x then x else y

/-- The pattern of a signal, its confidence before anything lowers it, and the reason. -/
def classify? (p : Policy) (emissions connections : Nat) : Option (Pattern × Float × String) :=
  match emissions, connections with
  | 0, 0 => some (.isolated, p.isolated, "declared but never emitted or connected")
  | 0, n => some (.orphan, p.orphan, s!"connected {n} time(s) but never emitted")
  | n, 0 => some (.deadEmitter, p.deadEmitter, s!"emitted {n} time(s) but never connected")
  | _, _ => none

/-- What lowers the confidence in a signal, and the words for it. -/
def penalties (p : Policy) (name : String) (definitions : Nat) : List (Float × String) :=
  (if name.toList.head? = some '_' then [(p.privatePenalty, "; private name")] else []) ++
    (if 1 < definitions then [(p.duplicatePenalty, s!"; declared {definitions} times")] else []) ++
    (if definitions = 0 then [(p.undeclaredPenalty, "; no declaration in scanned files")] else [])

/-- The confidence after the penalties, not below the floor. -/
def lowered (p : Policy) (base : Float) (penalties : List (Float × String)) : Float :=
  round2 (larger (penalties.foldl (fun x y => x - y.1) base) p.floor)

/-- The report on a name, if it is not used. -/
def report? (p : Policy) (g : Graph) (name : String) : Option UnusedReport :=
  match classify? p (g.emissionsOf name).length (g.connectionsOf name).length with
  | none => none
  | some (.isolated, base, reason) => some ⟨name, .isolated, base, reason⟩
  | some (pattern, base, reason) =>
    let l := penalties p name (g.definitionsOf name).length
    some ⟨name, pattern, lowered p base l, String.join (reason :: l.map Prod.snd)⟩

/-- Whether a report stands before another one: by falling confidence, then by name. -/
def before (a b : UnusedReport) : Bool :=
  if b.confidence < a.confidence then true
  else if a.confidence < b.confidence then false
  else a.signalName < b.signalName

/-- Reports in order; equal ones keep theirs. Where there are confidences that are no numbers, the
steps of `RunSort.sort?` decide. -/
def sort? (l : List UnusedReport) : Option (List UnusedReport) :=
  if l.any fun r => r.confidence.isNaN then RunSort.sort? before l
  else some (l.mergeSort fun a b => !before b a)

/-- The mean confidence of reports. -/
def meanConfidence (l : List UnusedReport) : Float :=
  if l.isEmpty then 0
  else round2 (l.foldl (fun x r => x + r.confidence) (-0.0) / l.length.toFloat)

/-- The number of reports of a pattern. -/
def count (l : List UnusedReport) (p : Pattern) : Nat := l.countP fun r => r.pattern = p

end Unused

/-- The names of a graph to look at: those that are declared, or all of them. -/
def Graph.candidates (g : Graph) (includeUndeclared : Bool) : List String :=
  if includeUndeclared then g.signalNames else g.definitions.keys

/-- The counts of reports on a number of names. -/
def Unused.stats (analyzed : Nat) (reports : List UnusedReport) : UnusedStats where
  signalsAnalyzed := analyzed
  orphansFound := count reports .orphan
  deadEmittersFound := count reports .deadEmitter
  isolatedFound := count reports .isolated
  totalUnused := reports.length
  avgConfidence := meanConfidence reports

/-- The signals of a graph that are not used, if they can be brought in order. -/
def Graph.unused? (g : Graph) (includeUndeclared : Bool) (p : Policy) : Option UnusedResult :=
  let names := g.candidates includeUndeclared
  (Unused.sort? (names.filterMap (Unused.report? p g))).map fun reports =>
    ⟨reports, Unused.stats names.length reports⟩

end SignalAtlas
