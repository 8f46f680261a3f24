import SignalAtlas.Decimal.Binary

/-!
# Decimals with fixed places

`Fixed.render places x` writes a double with a fixed number of decimal places. The exact value of
the double is rounded, and a half goes to the even neighbour.
-/

namespace SignalAtlas.Fixed

/-- The whole number nearest to a quotient; a half goes to the even neighbour. -/
def roundDiv (num den : Nat) : Nat :=
  let k := num / den
  let twice := 2 * (num % den)
  if den < twice ∨ (twice = den ∧ k % 2 = 1) then k + 1 else k

/-- A text filled up in front to a width. -/
def padLeft (width : Nat) (c : Char) (s : String) : String :=
  .ofList (List.replicate (width - s.length) c) ++ s

/-- A whole number of units of the last of `places` decimal places. -/
def point (places units : Nat) : String :=
  let whole := toString (units / Nat.pow 10 places)
  if places = 0 then whole
  else whole ++ "." ++ padLeft places '0' (toString (units % Nat.pow 10 places))

/-- A double with a number of decimal places. -/
def render (places : Nat) (x : Float) : String :=
  match Binary.ofFloat x with
  | .nan => "NaN"
  | .infinite negative => if negative then "-inf" else "inf"
  | .finite negative m q _ =>
    let (num, den) := Binary.ratio m q
    (if negative then "-" else "") ++ point places (roundDiv (num * Nat.pow 10 places) den)

end SignalAtlas.Fixed
