/-!
# Literals

What text and integer literals of a script stand for.

* `Literal.unquote` takes the mark and the quotes off a text literal;
* `Literal.natural?` reads an integer literal, which may be written in base 2, 10 or 16 and hold
  underscores.
-/

namespace SignalAtlas.Literal

/-! ### Texts -/

/-- The characters after others that stand in front. -/
def stripFront? : List Char → List Char → Option (List Char)
  | [], cs => some cs
  | _ :: _, [] => none
  | q :: qs, c :: cs => if q = c then stripFront? qs cs else none

/-- The characters between a quote at both ends. -/
def between? (quote cs : List Char) : Option (List Char) :=
  match stripFront? quote cs with
  | none => none
  | some rest => (stripFront? quote.reverse rest.reverse).map List.reverse

/-- The quotes, the longer ones first. -/
def quotes : List (List Char) :=
  [['"', '"', '"'], ['\'', '\'', '\''], ['"'], ['\'']]

/-- A literal without the mark in front that tells its sort. -/
def withoutMark : List Char → List Char
  | '&' :: cs => cs
  | '^' :: cs => cs
  | cs => cs

/-- The contents of a text literal given by its characters. -/
def unquoteChars (cs : List Char) : List Char :=
  let body := withoutMark cs
  (quotes.findSome? fun q => between? q body).getD body

/-- The contents of a text literal. -/
def unquote (text : String) : String := .ofList (unquoteChars text.toList)

/-! ### Integers -/

/-- The value of a digit in a base up to 16. -/
def digit? (base : Nat) (c : Char) : Option Nat :=
  let d? :=
    if '0' ≤ c ∧ c ≤ '9' then some (c.toNat - '0'.toNat)
    else if 'a' ≤ c ∧ c ≤ 'f' then some (c.toNat - 'a'.toNat + 10)
    else if 'A' ≤ c ∧ c ≤ 'F' then some (c.toNat - 'A'.toNat + 10)
    else none
  d?.filter (· < base)

/-- The number that digits write in a base. -/
def positional (base : Nat) (ds : List Nat) : Nat := ds.foldl (fun n d => n * base + d) 0

/-- The 64-bit number that characters write in a base: digits, after a plus sign if there is one. -/
def word? (base : Nat) (cs : List Char) : Option Nat :=
  let cs :=
    match cs with
    | '+' :: cs => cs
    | cs => cs
  if cs.isEmpty then none
  else
    match cs.mapM (digit? base) with
    | none => none
    | some ds =>
      if positional base ds < 18446744073709551616 then some (positional base ds) else none

/-- The base of a literal and its digits. -/
def base : List Char → Nat × List Char
  | '0' :: 'x' :: cs => (16, cs)
  | '0' :: 'X' :: cs => (16, cs)
  | '0' :: 'b' :: cs => (2, cs)
  | '0' :: 'B' :: cs => (2, cs)
  | cs => (10, cs)

/-- The value of an integer literal, if it fits into 64 bits. -/
def natural? (text : String) : Option Nat :=
  let (b, cs) := base (text.toList.filter (· != '_'))
  word? b cs

end SignalAtlas.Literal
