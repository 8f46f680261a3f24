import SignalAtlas.SortedMap

/-!
# JSON values

`Json` is the type of JSON values. Whole numbers are kept apart from the other ones, because a
count may be read from the former only. The members of an object are a list of pairs; reading a
text gives every name once, in increasing order.

The functions named `…?` read a value as what it stands for and fail on any other form.
-/

namespace SignalAtlas

/-- A JSON value. Numbers written without fraction and exponent are kept apart from the others. -/
inductive Json where
  | null
  | bool (b : Bool)
  | int (n : Int)
  | real (x : Float)
  | string (s : String)
  | array (items : List Json)
  | object (members : List (String × Json))
  deriving Inhabited

namespace Json

/-- A natural number as a value. -/
def nat (n : Nat) : Json := .int n

/-- A number of 32 bits as a value. -/
def word32 (w : UInt32) : Json := .nat w.toNat

/-- A number of 64 bits as a value. -/
def word64 (w : UInt64) : Json := .nat w.toNat

/-- A list of texts as a value. -/
def strings (l : List String) : Json := .array (l.map .string)

/-- A map from texts as an object. -/
def ofMap {β : Type} (f : β → Json) (m : SortedMap String β) : Json :=
  .object (m.entries.map fun e => (e.1, f e.2))

/-! ### Reading -/

/-- The member of an object with a name. -/
def member? (name : String) : Json → Option Json
  | .object ms => ms.lookup name
  | _ => none

/-- The text that a value is. -/
def string? : Json → Option String
  | .string s => some s
  | _ => none

/-- The truth value that a value is. -/
def bool? : Json → Option Bool
  | .bool b => some b
  | _ => none

/-- The choice that a value names: a text, or an object with that name as its only member, whose
value is `null`. -/
def choice? : Json → Option String
  | .string s => some s
  | .object [(s, .null)] => some s
  | _ => none

/-- The natural number below a bound that a value is. -/
def natBelow? (bound : Nat) : Json → Option Nat
  | .int n => if 0 ≤ n ∧ n < bound then some n.toNat else none
  | _ => none

/-- A count, which has no more than 64 bits. -/
def count? : Json → Option Nat := natBelow? UInt64.size

/-- A number of 32 bits. -/
def word32? (j : Json) : Option UInt32 := (j.natBelow? UInt32.size).map .ofNat

/-- A number of 64 bits. -/
def word64? (j : Json) : Option UInt64 := (j.natBelow? UInt64.size).map .ofNat

/-- The list that a value is, with each item read in the same way. -/
def list? {β : Type} (item? : Json → Option β) : Json → Option (List β)
  | .array items => items.mapM item?
  | _ => none

/-- The map that a value is, with each member read in the same way. -/
def map? {β : Type} (value? : Json → Option β) : Json → Option (SortedMap String β)
  | .object ms => (ms.mapM fun e => (value? e.2).map (e.1, ·)).map .ofList
  | _ => none

/-- An optional value: `null` stands for its absence. -/
def optional? {β : Type} (value? : Json → Option β) : Option Json → Option (Option β)
  | none => some none
  | some .null => some none
  | some j => (value? j).map some

/-- The fields of a record by name. A record is an object, whose other members are ignored, or
the list of exactly its fields in order. -/
def fields? (names : List String) : Json → Option (List (Option Json))
  | .object ms => some (names.map fun name => ms.lookup name)
  | .array items => if items.length = names.length then some (items.map some) else none
  | _ => none

end Json

end SignalAtlas
