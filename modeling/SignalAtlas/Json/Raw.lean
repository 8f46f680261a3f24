import SignalAtlas.Json.Basic
import SignalAtlas.Text.Bytes

/-!
# JSON texts

`Raw.parse?` reads the bytes of a JSON text into its grammatical form, a `Raw`: texts still as
their pieces, numbers still as their digits, members in the order and number in which they were
written. What a form stands for is decided afterwards, and only for the parts that are used:

* `Raw.toJson?` takes the whole form as a value. It refuses texts that are no UTF-8 or hold half a
  surrogate pair, numbers beyond the range of doubles and nesting deeper than `Raw.maxDepth`; the
  last of several members of one name counts.
* `Raw.string?`, `Raw.natBelow?`, `Raw.fields?` and `Raw.members?` take it apart without asking
  anything of the parts that are skipped. Here a field must not be given twice.
-/

namespace SignalAtlas

/-! ### Numerals -/

/-- A number as it is written: its sign, the digits before and after the point, and the sign (`true`
for minus) and digits of the exponent. -/
structure Numeral where
  negative : Bool
  whole : List Nat
  fraction : Option (List Nat)
  exponent : Option (Bool × List Nat)

namespace Numeral

/-- The number that digits write in a base. -/
def ofDigits (base : Nat) (ds : List Nat) : Nat := ds.foldl (fun n d => n * base + d) 0

/-- The leading digits that fit into a 64-bit word, with their number, and the digits left over. -/
def significand : Nat → Nat → List Nat → Nat × Nat × List Nat
  | acc, n, [] => (acc, n, [])
  | acc, n, d :: ds =>
    if acc * 10 + d < UInt64.size then significand (acc * 10 + d) (n + 1) ds else (acc, n, d :: ds)

/-- A double divided by a power of ten. Beyond the reach of one division the quotient is first
divided by 1e308; it is zero long before `fuel` runs out. -/
def divide : (fuel : Nat) → Float → (power : Nat) → Float
  | 0, x, _ => x
  | fuel + 1, x, power =>
    if 308 < power then divide fuel (x / 1e308) (power - 308)
    else x / Float.ofScientific 1 false power

/-- A significand scaled by a power of ten, as a double; `none` if it is too large. -/
def scale? (s : Nat) (e : Int) : Option Float :=
  if e < 0 then some (divide 8 s.toFloat e.natAbs)
  else if s = 0 then some 0
  else if 308 < e then none
  else
    let x := s.toFloat * Float.ofScientific 1 false e.toNat
    if x.isInf then none else some x

/-- The magnitude of a numeral as a double; `none` if it is too large. Digits that do not fit
into the significand only count as places. -/
def magnitude? (n : Numeral) : Option Float :=
  let (s, _, excess) := significand 0 0 n.whole
  let (s, places, _) := significand s 0 (n.fraction.getD [])
  let base : Int := excess.length - places
  match n.exponent with
  | none => scale? s base
  | some (minus, ds) =>
    let e := ofDigits 10 ds
    if e < 2147483648 then scale? s (if minus then base - e else base + e)
    else if s ≠ 0 ∧ !minus then none else some 0

/-- The value of a numeral: a 64-bit whole number where it is one, else a double. -/
def toJson? (n : Numeral) : Option Json :=
  let m := ofDigits 10 n.whole
  match n.fraction, n.exponent with
  | none, none =>
    if !n.negative ∧ m < UInt64.size then some (.int m)
    else if n.negative ∧ 0 < m ∧ m ≤ 9223372036854775808 then some (.int (-m))
    else real n
  | _, _ => real n
where
  /-- The value as a double. -/
  real (n : Numeral) : Option Json :=
    n.magnitude?.map fun x => .real (if n.negative then -x else x)

/-- The natural number below a bound that a numeral writes plainly. -/
def natBelow? (bound : Nat) (n : Numeral) : Option Nat :=
  let m := ofDigits 10 n.whole
  if n.negative = false ∧ n.fraction = none ∧ n.exponent = none ∧ m < bound then some m else none

end Numeral

/-! ### Forms -/

/-- A piece of a written text: a byte of the text or a UTF-16 unit given by its number. -/
inductive Piece where
  | byte (b : UInt8)
  | unit (u : Nat)

/-- The grammatical form of a JSON text. -/
inductive Raw where
  | null
  | bool (b : Bool)
  | number (n : Numeral)
  | string (s : List Piece)
  | array (items : List Raw)
  | object (members : List (List Piece × Raw))

namespace Raw

/-! ### Grammar -/

/-- The bytes after the blanks in front. -/
def skipBlanks (bytes : Bytes) : Bytes :=
  bytes.dropWhile fun b => b = 0x20 || b = 0x09 || b = 0x0A || b = 0x0D

/-- The value of a hexadecimal digit. -/
def hexDigit? (b : UInt8) : Option Nat :=
  let c := asciiChar b
  if '0' ≤ c ∧ c ≤ '9' then some (c.toNat - '0'.toNat)
  else if 'a' ≤ c ∧ c ≤ 'f' then some (c.toNat - 'a'.toNat + 10)
  else if 'A' ≤ c ∧ c ≤ 'F' then some (c.toNat - 'A'.toNat + 10)
  else none

/-- The piece that a letter after a backslash stands for. -/
def escape? (b : UInt8) : Option UInt8 :=
  match asciiChar b with
  | '"' => some 0x22
  | '\\' => some 0x5C
  | '/' => some 0x2F
  | 'b' => some 0x08
  | 'f' => some 0x0C
  | 'n' => some 0x0A
  | 'r' => some 0x0D
  | 't' => some 0x09
  | _ => none

/-- Read a text up to its closing quote; `acc` holds the pieces so far, the last one first. -/
def stringBody : List Piece → Bytes → Option (List Piece × Bytes)
  | _, [] => none
  | acc, b :: rest =>
    if b = 0x22 then some (acc.reverse, rest)
    else if b = 0x5C then
      match rest with
      | [] => none
      | e :: rest =>
        if e = 0x75 then
          match rest with
          | h₁ :: h₂ :: h₃ :: h₄ :: rest =>
            match hexDigit? h₁, hexDigit? h₂, hexDigit? h₃, hexDigit? h₄ with
            | some d₁, some d₂, some d₃, some d₄ =>
              stringBody (.unit (((d₁ * 16 + d₂) * 16 + d₃) * 16 + d₄) :: acc) rest
            | _, _, _, _ => none
          | _ => none
        else
          match escape? e with
          | some c => stringBody (.byte c :: acc) rest
          | none => none
    else if b < 0x20 then none
    else stringBody (.byte b :: acc) rest

/-- Whether a byte is a decimal digit. -/
def isDigit (b : UInt8) : Bool := 0x30 ≤ b && b ≤ 0x39

/-- The digits in front and the bytes after them. -/
def digits (bytes : Bytes) : List Nat × Bytes :=
  ((bytes.takeWhile isDigit).map (·.toNat - 0x30), bytes.dropWhile isDigit)

/-- Read the fraction of a number, if one starts here. -/
def fraction? : Bytes → Option (Option (List Nat) × Bytes)
  | 0x2E :: rest =>
    match digits rest with
    | ([], _) => none
    | (ds, rest) => some (some ds, rest)
  | rest => some (none, rest)

/-- Read the exponent of a number, if one starts here. -/
def exponent? : Bytes → Option (Option (Bool × List Nat) × Bytes)
  | [] => some (none, [])
  | e :: rest =>
    if e = 0x65 ∨ e = 0x45 then
      let (minus, rest) :=
        match rest with
        | 0x2B :: r => (false, r)
        | 0x2D :: r => (true, r)
        | r => (false, r)
      match digits rest with
      | ([], _) => none
      | (ds, rest) => some (some (minus, ds), rest)
    else some (none, e :: rest)

/-- Read a number without its sign. A zero in front of other digits is refused. -/
def numeral? (negative : Bool) (bytes : Bytes) : Option (Numeral × Bytes) :=
  match digits bytes with
  | ([], _) => none
  | (0 :: _ :: _, _) => none
  | (whole, rest) =>
    match fraction? rest with
    | none => none
    | some (fraction, rest) =>
      match exponent? rest with
      | none => none
      | some (exponent, rest) => some (⟨negative, whole, fraction, exponent⟩, rest)

/-- Read the rest of a word. -/
def word? : List UInt8 → Bytes → Option Bytes
  | [], rest => some rest
  | _ :: _, [] => none
  | w :: ws, b :: rest => if w = b then word? ws rest else none

mutual

/-- Read a value; `fuel` bounds the number of values and separators ahead. -/
def value? : Nat → Bytes → Option (Raw × Bytes)
  | 0, _ => none
  | fuel + 1, bytes =>
    match skipBlanks bytes with
    | [] => none
    | b :: rest =>
      match asciiChar b with
      | 'n' => (word? (Text.bytes "ull") rest).map (.null, ·)
      | 't' => (word? (Text.bytes "rue") rest).map (.bool true, ·)
      | 'f' => (word? (Text.bytes "alse") rest).map (.bool false, ·)
      | '"' => (stringBody [] rest).map fun (s, rest) => (.string s, rest)
      | '-' => (numeral? true rest).map fun (n, rest) => (.number n, rest)
      | '[' =>
        match skipBlanks rest with
        | 0x5D :: rest => some (.array [], rest)
        | rest => (items? fuel rest).map fun (l, rest) => (.array l, rest)
      | '\x7b' =>
        match skipBlanks rest with
        | 0x7D :: rest => some (.object [], rest)
        | rest => (members? fuel rest).map fun (l, rest) => (.object l, rest)
      | _ => (numeral? false (b :: rest)).map fun (n, rest) => (.number n, rest)

/-- Read the items of an array up to the closing bracket. -/
def items? : Nat → Bytes → Option (List Raw × Bytes)
  | 0, _ => none
  | fuel + 1, bytes =>
    match value? fuel bytes with
    | none => none
    | some (v, rest) =>
      match skipBlanks rest with
      | 0x5D :: rest => some ([v], rest)
      | 0x2C :: rest => (items? fuel rest).map fun (l, rest) => (v :: l, rest)
      | _ => none

/-- Read the members of an object up to the closing brace. -/
def members? : Nat → Bytes → Option (List (List Piece × Raw) × Bytes)
  | 0, _ => none
  | fuel + 1, bytes =>
    match skipBlanks bytes with
    | 0x22 :: rest =>
      match stringBody [] rest with
      | none => none
      | some (name, rest) =>
        match skipBlanks rest with
        | 0x3A :: rest =>
          match value? fuel rest with
          | none => none
          | some (v, rest) =>
            match skipBlanks rest with
            | 0x7D :: rest => some ([(name, v)], rest)
            | 0x2C :: rest => (members? fuel rest).map fun (l, rest) => ((name, v) :: l, rest)
            | _ => none
        | _ => none
    | _ => none

end

/-- Read the bytes of a JSON text, which holds one value and blanks around it. -/
def parse? (bytes : Bytes) : Option Raw :=
  match value? (2 * bytes.length + 2) bytes with
  | some (v, rest) => if (skipBlanks rest).isEmpty then some v else none
  | none => none

/-! ### What a form stands for -/

/-- The bytes of the text that pieces write. A leading surrogate needs a trailing one. -/
def pieceBytes? : List Piece → Option Bytes
  | [] => some []
  | .byte b :: rest => (pieceBytes? rest).map (b :: ·)
  | .unit u :: .unit v :: rest =>
    if 0xD800 ≤ u ∧ u < 0xDC00 then
      if 0xDC00 ≤ v ∧ v < 0xE000 then
        (pieceBytes? rest).map
          (Text.bytes (.singleton (.ofNat (0x10000 + (u - 0xD800) * 0x400 + (v - 0xDC00)))) ++ ·)
      else none
    else if 0xDC00 ≤ u ∧ u < 0xE000 then none
    else (pieceBytes? (.unit v :: rest)).map (Text.bytes (.singleton (.ofNat u)) ++ ·)
  | .unit u :: rest =>
    if 0xD800 ≤ u ∧ u < 0xE000 then none
    else (pieceBytes? rest).map (Text.bytes (.singleton (.ofNat u)) ++ ·)

/-- The text that pieces write. -/
def pieceText? (s : List Piece) : Option String := (pieceBytes? s).bind Bytes.text?

/-- The deepest nesting of arrays and objects in a value. -/
def maxDepth : Nat := 127

mutual

/-- The value of a form with at most `depth` nested arrays and objects. -/
def toJsonWithin? : (depth : Nat) → Raw → Option Json
  | _, .null => some .null
  | _, .bool b => some (.bool b)
  | _, .number n => n.toJson?
  | _, .string s => (pieceText? s).map .string
  | 0, .array _ => none
  | depth + 1, .array items => (itemsWithin? depth items).map .array
  | 0, .object _ => none
  | depth + 1, .object members =>
    (membersWithin? depth members).map fun l => .object (SortedMap.ofList l).entries

/-- The values of the items of an array. -/
def itemsWithin? : (depth : Nat) → List Raw → Option (List Json)
  | _, [] => some []
  | depth, v :: l =>
    match toJsonWithin? depth v with
    | none => none
    | some j => (itemsWithin? depth l).map (j :: ·)

/-- The names and values of the members of an object. -/
def membersWithin? : (depth : Nat) → List (List Piece × Raw) → Option (List (String × Json))
  | _, [] => some []
  | depth, (name, v) :: l =>
    match pieceText? name, toJsonWithin? depth v with
    | some name, some j => (membersWithin? depth l).map ((name, j) :: ·)
    | _, _ => none

end

/-- The value of a form. -/
def toJson? (r : Raw) : Option Json := toJsonWithin? maxDepth r

/-- The text that a form is. -/
def string? : Raw → Option String
  | .string s => pieceText? s
  | _ => none

/-- The natural number below a bound that a form is. -/
def natBelow? (bound : Nat) : Raw → Option Nat
  | .number n => n.natBelow? bound
  | _ => none

/-- The number of 32 bits that a form writes plainly. -/
def word32? (r : Raw) : Option UInt32 := (r.natBelow? UInt32.size).map .ofNat

/-- The number of 64 bits that a form writes plainly. -/
def word64? (r : Raw) : Option UInt64 := (r.natBelow? UInt64.size).map .ofNat

/-- The members of an object by name. -/
def entries? : Raw → Option (List (String × Raw))
  | .object ms => ms.mapM fun e => (pieceText? e.1).map (·, e.2)
  | _ => none

/-- The fields of a record by name, each given at most once. A record is an object, whose other
members are skipped, or the list of exactly its fields in order. -/
def fields? (names : List String) : Raw → Option (List (Option Raw))
  | .array items => if items.length = names.length then some (items.map some) else none
  | r =>
    match r.entries? with
    | some ms =>
      if names.all fun name => ms.countP (·.1 == name) ≤ 1 then
        some (names.map fun name => ms.lookup name)
      else none
    | none => none

end Raw

/-- The value of a JSON text. -/
def Json.parse? (bytes : Bytes) : Option Json := (Raw.parse? bytes).bind Raw.toJson?

end SignalAtlas
