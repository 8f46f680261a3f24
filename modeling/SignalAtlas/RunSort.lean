/-!
# Sorting by runs

`RunSort.sort?` sorts a list by a comparison `less`. Short lists are sorted by insertion. Longer
ones are cut into runs: a stretch that is in order already is a run, and so is a piece of fixed
length, which is sorted by partition when it is needed. Neighbouring runs are merged as the leaves
of a balanced tree.

For a comparison that is a strict weak order the result is the list in order, with equal items as
they were. With other comparisons the result is fixed by the comparisons that are made, and by their
order. There is none if two of them are found to contradict each other: a few items are merged from
both ends, and the ends do not meet.
-/

namespace SignalAtlas.RunSort

variable {α : Type} (less : α → α → Bool)

/-! ### Few items -/

/-- Put an item behind those of a list, last one first, that it is not less than. -/
def place (a : α) : List α → List α
  | [] => [a]
  | b :: l => if less a b then b :: place a l else a :: b :: l

/-- Put items one after the other into a list, last one first. -/
def placeAll (start l : List α) : List α := l.foldl (fun acc a => place less a acc) start

/-- A list sorted by insertion. -/
def insertion (l : List α) : List α := (placeAll less [] l).reverse

/-- Four items in order, by five comparisons. -/
def four (p q r s : α) : List α :=
  let (a, b) := if less q p then (q, p) else (p, q)
  let (c, d) := if less s r then (s, r) else (r, s)
  let low := less c a
  let high := less d b
  let left := if low then a else if high then c else b
  let right := if high then d else if low then b else c
  [if low then c else a] ++ (if less right left then [right, left] else [left, right]) ++
    [if high then b else d]

/-- A list sorted by insertion after its first four items. -/
def insertionFromFour : List α → List α
  | p :: q :: r :: s :: l => (placeAll less (four less p q r s).reverse l).reverse
  | l => insertion less l

/-- Take items from the front of two lists: the lesser one, from the first list in doubt. Gives what
is taken, and what is left of the lists. -/
def takeLow : Nat → List α → List α → List α × List α × List α
  | n + 1, a :: l, b :: r =>
    if less b a then
      let (taken, rest) := takeLow n (a :: l) r
      (b :: taken, rest)
    else
      let (taken, rest) := takeLow n l (b :: r)
      (a :: taken, rest)
  | _, l, r => ([], l, r)

/-- Take items from the front of two lists, last one first: the greater one, from the second list in
doubt. -/
def takeHigh : Nat → List α → List α → List α × List α × List α
  | n + 1, a :: l, b :: r =>
    if less b a then
      let (taken, rest) := takeHigh n l (b :: r)
      (a :: taken, rest)
    else
      let (taken, rest) := takeHigh n (a :: l) r
      (b :: taken, rest)
  | _, l, r => ([], l, r)

/-- Merge a list and one that is as long or has one item more, from both ends to the middle. The two
ends have to meet: together they take every item once, but for one in the middle. -/
def meet? (l r : List α) : Option (List α) :=
  let (low, l₁, r₁) := takeLow less l.length l r
  let (high, l₂, r₂) := takeHigh less l.length l.reverse r.reverse
  let left := (l.length - l₁.length) + (l.length - l₂.length)
  let right := (r.length - r₁.length) + (r.length - r₂.length)
  if left = l.length ∧ right = r.length then some (low ++ high.reverse)
  else if left + 1 = l.length ∧ right = r.length then some (low ++ l₁.take 1 ++ high.reverse)
  else if left = l.length ∧ right + 1 = r.length then some (low ++ r₁.take 1 ++ high.reverse)
  else none

/-- The length of lists that are sorted in halves. -/
def fewItems : Nat := 32

/-- A list of a few items in order. -/
def few? (l : List α) : Option (List α) :=
  let half := l.length / 2
  let part := if 8 ≤ l.length then insertionFromFour less else insertion less
  if l.length < 2 then some l else meet? less (part (l.take half)) (part (l.drop half))

/-! ### Partition -/

/-- Compare the items at two places. -/
def lessAt (v : Array α) (i j : Nat) : Bool :=
  match v[i]?, v[j]? with
  | some a, some b => less a b
  | _, _ => false

/-- The place of the middle one of three items. -/
def median (v : Array α) (i j k : Nat) : Nat :=
  let below := lessAt less v i j
  if below != lessAt less v i k then i
  else if lessAt less v j k != below then k
  else j

/-- The middle one of three places, each of which stands for `n` items from there on. -/
def medianOf (v : Array α) (n i j k : Nat) : Nat :=
  if 8 ≤ n then
    let m := n / 8
    median less v (medianOf v m i (i + m * 4) (i + m * 7)) (medianOf v m j (j + m * 4) (j + m * 7))
      (medianOf v m k (k + m * 4) (k + m * 7))
  else median less v i j k
termination_by n
decreasing_by all_goals omega

/-- The place of the item by which a list is parted. -/
def pivot (v : Array α) : Nat :=
  let n := v.size / 8
  if v.size < 64 then median less v 0 (n * 4) (n * 7) else medianOf less v n 0 (n * 4) (n * 7)

/-- The items of a list that a test accepts, and the others; the test of one place is given. -/
def part (l : List α) (place : Nat) (accepted : Bool) (test : α → Bool) : List α × List α :=
  let (yes, no) := l.zipIdx.partition fun (a, i) => if i = place then accepted else test a
  (yes.map Prod.fst, no.map Prod.fst)

/-! ### Runs -/

/-- The items at the front of a list that continue a run, and the others. -/
def extend (continues : α → α → Bool) : α → List α → List α × List α
  | _, [] => ([], [])
  | a, b :: l =>
    if continues b a then
      let (more, rest) := extend continues b l
      (b :: more, rest)
    else ([], b :: l)

/-- The longest run at the front of a list, in order, and the other items. A falling run is turned
over. -/
def stretch : List α → List α × List α
  | a :: b :: l =>
    if less b a then
      let (more, rest) := extend less b l
      ((a :: b :: more).reverse, rest)
    else
      let (more, rest) := extend (fun y x => !less y x) b l
      (a :: b :: more, rest)
  | l => (l, [])

/-- A piece of a list, and whether it is in order. -/
structure Run (α : Type) where
  items : List α
  sorted : Bool

/-- How a list is cut into runs: their least length, and whether shorter ones are sorted at once. -/
structure Cut where
  least : Nat
  eager : Bool

/-- The first run of a list, and the other items. -/
def Cut.next? (c : Cut) (l : List α) : Option (Run α × List α) :=
  let (items, rest) := stretch less l
  if c.least ≤ items.length then some (⟨items, true⟩, rest)
  else if c.eager then
    (few? less (l.take fewItems)).map fun items => (⟨items, true⟩, l.drop fewItems)
  else some (⟨l.take c.least, false⟩, l.drop c.least)

/-- Merge two lists; equal items are taken from the first one. The merge starts at the end at which
the shorter list stands. -/
def merge (l r : List α) : List α :=
  if l.length ≤ r.length then l.merge r fun a b => !less b a
  else (r.reverse.merge l.reverse fun b a => !less b a).reverse

/-- The items of a run in order. -/
def Run.ordered? (sort? : List α → Option (List α)) (r : Run α) : Option (List α) :=
  if r.sorted then some r.items else sort? r.items

/-- Join neighbouring runs. Two runs that are not in order are not sorted yet. -/
def Run.join? (sort? : List α → Option (List α)) (r s : Run α) : Option (Run α) :=
  if r.sorted || s.sorted then do
    let left ← r.ordered? sort?
    let right ← s.ordered? sort?
    return ⟨merge less left right, true⟩
  else some ⟨r.items ++ s.items, false⟩

/-- The depth in the tree of merges of the node between two neighbouring runs of a list. -/
def depth (length left middle right : Nat) : Nat :=
  let scale := (Nat.pow 2 62 + length - 1) / length
  let mask := Nat.pow 2 64
  let x := (scale * (left + middle) % mask) ^^^ (scale * (middle + right) % mask)
  if x = 0 then 64 else 63 - x.log2

/-- Join a run with those before it, nearest one first, that lie at least as deep as the node that
follows it. -/
def joinDeep? (sort? : List α → Option (List α)) (d : Nat) : List (Run α × Nat) → Run α →
    Option (List (Run α × Nat) × Run α)
  | [], r => some ([], r)
  | (left, at') :: stack, r =>
    if d ≤ at' then
      match left.join? less sort? r with
      | none => none
      | some r => joinDeep? sort? d stack r
    else some ((left, at') :: stack, r)

/-- Cut the rest of a list into runs, of which there are at most `fuel`, and join them all. -/
def joinAll? (sort? : List α → Option (List α)) (c : Cut) (length : Nat) : (fuel : Nat) →
    List (Run α × Nat) → Run α → (done : Nat) → List α → Option (Run α)
  | 0, _, _, _, _ => none
  | fuel + 1, stack, r, done, rest =>
    if rest.isEmpty then (joinDeep? less sort? 0 stack r).map Prod.snd
    else
      match c.next? less rest with
      | none => none
      | some (next, after) =>
        let d := depth length (done - r.items.length) done (done + next.items.length)
        match joinDeep? less sort? d stack r with
        | none => none
        | some (stack, r) =>
          joinAll? sort? c length fuel ((r, d) :: stack) next (done + next.items.length) after

/-- Roughly the square root of a number. -/
def root (n : Nat) : Nat :=
  let shift := (1 + (n ||| 1).log2) / 2
  (Nat.pow 2 shift + n / Nat.pow 2 shift) / 2

/-- How a list of some length is cut into runs. -/
def cut (eager : Bool) (length : Nat) : Cut :=
  ⟨if length ≤ 4096 then min (length - length / 2) 64 else root length, eager⟩

/-- A list in order, by its runs. -/
def byRuns? (sort? : List α → Option (List α)) (eager : Bool) (l : List α) : Option (List α) := do
  let c := cut eager l.length
  let (first, rest) ← c.next? less l
  let r ← joinAll? less sort? c l.length (l.length + 1) [] first first.items.length rest
  r.ordered? sort?

/-- A list in order, by partition at most `limit` deep. No item is less than `bound`. -/
def byPartition? : (limit : Nat) → (bound : Option α) → List α → Option (List α)
  | 0, _, l => if l.length ≤ fewItems then few? less l else byRuns? less some true l
  | limit + 1, bound, l =>
    if l.length ≤ fewItems then few? less l
    else
      let i := pivot less l.toArray
      match l[i]? with
      | none => none
      | some p =>
        let (low, high) := part l i false fun a => less a p
        if low.isEmpty || bound.any fun b => !less b p then
          let (equal, high) := part l i true fun a => !less p a
          (byPartition? limit none high).map (equal ++ ·)
        else do
          let low ← byPartition? limit bound low
          let high ← byPartition? limit (some p) high
          return low ++ high

/-- A list in order, by partition. -/
def whole? (l : List α) : Option (List α) := byPartition? less (2 * (l.length ||| 1).log2) none l

/-- A list in order, unless the comparison is found to be none. -/
def sort? (l : List α) : Option (List α) :=
  if l.length ≤ 20 then some (insertion less l)
  else byRuns? less (whole? less) (l.length ≤ 64) l

end SignalAtlas.RunSort
