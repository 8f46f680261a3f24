/-!
# Doubles as scaled whole numbers

A finite double is plus or minus m · 2^q for natural m. `Binary.ofFloat` reads sign, m and q off
the bits, so that decimal forms can be computed in exact arithmetic. `Binary.nearestWhole` rounds
to a whole number.
-/

namespace SignalAtlas

/-- A double taken apart: no number, plus or minus infinity, or plus or minus `m * 2 ^ q`. The last
is `tight` if the next double towards zero is nearer than the next one away from it. -/
inductive Binary where
  | nan
  | infinite (negative : Bool)
  | finite (negative : Bool) (m : Nat) (q : Int) (tight : Bool)
  deriving DecidableEq, Repr

namespace Binary

/-- Take apart the 64 bits of a double. -/
def ofBits (bits : Nat) : Binary :=
  let negative : Bool := bits / Nat.pow 2 63 % 2 == 1
  let exponent : Nat := bits / Nat.pow 2 52 % Nat.pow 2 11
  let fraction : Nat := bits % Nat.pow 2 52
  if exponent = 2047 then if fraction = 0 then .infinite negative else .nan
  else if exponent = 0 then .finite negative fraction (-1074) false
  else .finite negative (Nat.pow 2 52 + fraction) ((exponent : Int) - 1075)
    (fraction == 0 && decide (1 < exponent))

/-- Take apart a double. -/
def ofFloat (x : Float) : Binary := ofBits x.toBits.toNat

/-- The whole number nearest to a double, as a double of the same sign; a half goes away from
zero. -/
def nearestWhole (x : Float) : Float :=
  match ofFloat x with
  | .finite negative m q _ =>
    if 0 ≤ q then x
    else
      let den := Nat.pow 2 q.natAbs
      let k := ((2 * m + den) / (2 * den)).toFloat
      if negative then -k else k
  | _ => x

/-- `k * 2 ^ q` as a quotient of natural numbers. -/
def ratio (k : Nat) (q : Int) : Nat × Nat :=
  if 0 ≤ q then (k * Nat.pow 2 q.toNat, 1) else (k, Nat.pow 2 q.natAbs)

end Binary

end SignalAtlas
