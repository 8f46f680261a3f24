import SignalAtlas.Decimal.Binary

/-!
# Shortest decimals

`Shortest.digits` finds the decimal with the fewest digits that reads back as a given double, and
among those the nearest to it. `Shortest.render` writes it: positionally from 1e-5 up to 1e16, with
an exponent outside.
-/

namespace SignalAtlas.Shortest

/-- The doubles that read back as the double `mid / den` lie between `low / den` and `high / den`;
the ends belong to them if `closed`. -/
structure Interval where
  low : Nat
  mid : Nat
  high : Nat
  den : Nat
  closed : Bool

/-- The interval around `m * 2 ^ q`. -/
def Interval.around (m : Nat) (q : Int) (tight : Bool) : Interval :=
  let (scale, den) := Binary.ratio 1 q
  ⟨(4 * m - if tight then 1 else 2) * scale, 4 * m * scale, (4 * m + 2) * scale, 4 * den,
    m % 2 = 0⟩

/-- Whether a quotient lies in an interval. -/
def Interval.holds (i : Interval) (num den : Nat) : Bool :=
  if i.closed then i.low * den ≤ num * i.den && num * i.den ≤ i.high * den
  else i.low * den < num * i.den && num * i.den < i.high * den

/-- The exponent of the leading decimal digit of a positive quotient. -/
def leading (num den : Nat) : Int :=
  if den ≤ num then (toString (num / den)).length - 1
  else
    match (List.range 400).find? fun k => den ≤ num * Nat.pow 10 (k + 1) with
    | some k => -((k : Int) + 1)
    | none => 0

/-- `d * 10 ^ g` as a quotient. -/
def decimal (d : Nat) (g : Int) : Nat × Nat :=
  if 0 ≤ g then (d * Nat.pow 10 g.toNat, 1) else (d, Nat.pow 10 g.natAbs)

/-- The multiple of `10 ^ g` in an interval that is nearest to its middle, if its two neighbours
on that grid reach into it; of two equally near ones the even one. -/
def onGrid? (i : Interval) (g : Int) : Option Nat :=
  let (unit, den) := decimal 1 g
  let down := i.mid * den / (i.den * unit)
  let inside (d : Nat) := 0 < d && i.holds (d * unit) den
  match inside down, inside (down + 1) with
  | false, false => none
  | true, false => some down
  | false, true => some (down + 1)
  | true, true =>
    -- distances of the middle from both, over the common denominator
    let below := i.mid * den - down * unit * i.den
    let above := (down + 1) * unit * i.den - i.mid * den
    some (if below < above ∨ (below = above ∧ down % 2 = 0) then down else down + 1)

/-- Digits without the zeros at their back, and the exponent moved accordingly. -/
def strip : (fuel : Nat) → Nat → Int → Nat × Int
  | 0, d, g => (d, g)
  | fuel + 1, d, g => if d ≠ 0 ∧ d % 10 = 0 then strip fuel (d / 10) (g + 1) else (d, g)

/-- The shortest decimal `d * 10 ^ g` that reads back as `m * 2 ^ q`. -/
def digits (m : Nat) (q : Int) (tight : Bool) : Nat × Int :=
  let i := Interval.around m q tight
  let top := leading i.mid i.den
  let found := (List.range 17).findSome? fun (n : Nat) =>
    (onGrid? i (top - n)).map fun d => strip 20 d (top - n)
  found.getD (0, 0)

/-- Zeros. -/
def zeros (n : Nat) : String := .ofList (List.replicate n '0')

/-- Write a decimal `d * 10 ^ g`. -/
def layout (d : Nat) (g : Int) : String :=
  let ds := toString d
  let len : Int := ds.length
  let point := len + g
  if 0 ≤ g ∧ point ≤ 16 then ds ++ zeros g.toNat ++ ".0"
  else if 0 < point ∧ point ≤ 16 then
    .ofList (ds.toList.take point.toNat) ++ "." ++ .ofList (ds.toList.drop point.toNat)
  else if -5 < point ∧ point ≤ 0 then "0." ++ zeros point.natAbs ++ ds
  else
    let mantissa :=
      match ds.toList with
      | c :: c' :: cs => .ofList (c :: '.' :: c' :: cs)
      | cs => .ofList cs
    mantissa ++ "e" ++ toString (point - 1)

/-- The shortest decimal form of a finite double; `none` for the others. -/
def render? (x : Float) : Option String :=
  match Binary.ofFloat x with
  | .finite negative m q tight =>
    let magnitude :=
      if m = 0 then "0.0"
      else
        let (d, g) := digits m q tight
        layout d g
    some ((if negative then "-" else "") ++ magnitude)
  | _ => none

end SignalAtlas.Shortest
