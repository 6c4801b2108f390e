import NetFlat.Text.Numeral

/-!
# Decimals

Numbers written with a fraction or a power of ten, kept exactly, and the question whether such a
number is too large for a binary floating-point number of 64 bits.
-/

namespace NetFlat

/-- The number `coefficient` times ten to the power of `exponent`. -/
structure Decimal where
  coefficient : Nat
  exponent : Int
deriving DecidableEq, Repr

namespace Decimal

/-- The least number that rounds to infinity: half a step above the largest one of 64 bits, which
has 53 bits and lies below the 1024th power of two. -/
def overflow : Nat := Nat.pow 2 1024 - Nat.pow 2 970

/-- The number lies below ten to this power; unless it is zero, no smaller power will do. -/
def magnitude (d : Decimal) : Int := (Text.decimal d.coefficient).length + d.exponent

/-- The nearest number of 64 bits is infinity. The powers of ten in question are small, because
`overflow` lies between the 308th and the 309th. -/
def roundsToInfinity (d : Decimal) : Bool :=
  if d.coefficient = 0 ∨ d.magnitude < 309 then false
  else if 309 < d.magnitude then true
  else
    overflow * Nat.pow 10 (-d.exponent).toNat ≤ d.coefficient * Nat.pow 10 d.exponent.toNat

end Decimal

end NetFlat
