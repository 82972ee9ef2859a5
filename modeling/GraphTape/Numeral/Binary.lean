/-!
# Binary magnitudes

A double-precision number taken apart into its sign and its exact magnitude, a natural number
times a power of two. `Binary.window` gives the magnitudes that round to it as a range of
fractions over one denominator.
-/

namespace GraphTape.Numeral

/-- A double-precision number: not a number, infinite, or a signed exact magnitude. -/
inductive Binary where
  | nan
  | infinite (negative : Bool)
  /-- The magnitude `significand * 2 ^ exponent`. In a `narrow` one the gap to the next smaller
  number is half of the gap to the next larger one. -/
  | finite (negative : Bool) (significand : Nat) (exponent : Int) (narrow : Bool)
  deriving DecidableEq

namespace Binary

/-- The number encoded by 64 bits: sign, eleven bits of exponent, 52 bits of fraction. -/
def ofBits (bits : UInt64) : Binary :=
  let negative := bits >>> 63 = 1
  let biased := ((bits >>> 52) &&& 0x7ff).toNat
  let fraction := (bits &&& 0xfffffffffffff).toNat
  if biased = 2047 then
    if fraction = 0 then infinite negative else nan
  else if biased = 0 then
    finite negative fraction (-1074) false
  else
    finite negative (0x10000000000000 + fraction) (biased - 1075) (fraction = 0 ∧ 1 < biased)

/-- The number that a double-precision value stands for. -/
def ofFloat (x : Float) : Binary :=
  ofBits x.toBits

end Binary

/-- Ten to the power of `n`. -/
def tens (n : Nat) : Nat := Nat.pow 10 n

/-- Two to the power of `n`. -/
def twos (n : Nat) : Nat := Nat.pow 2 n

/-- The fraction `significand * 2 ^ exponent` as a numerator over a denominator. -/
def dyadic (significand : Nat) (exponent : Int) : Nat × Nat :=
  (significand * twos exponent.toNat, twos (-exponent).toNat)

/-- A positive fraction with the fractions around it that round to the same binary number. All
three are numerators over `den`. -/
structure Window where
  den : Nat
  low : Nat
  value : Nat
  high : Nat
  /-- Whether the two ends round to the number as well. -/
  closed : Bool

/-- The window of `significand * 2 ^ exponent`: half of the gap on either side. Its ends round
to the even significand, so they belong to the window of an even one. -/
def Window.ofMagnitude (significand : Nat) (exponent : Int) (narrow : Bool) : Window :=
  let (unit, den) := dyadic 1 (exponent - 2)
  { den
    low := (4 * significand - if narrow then 1 else 2) * unit
    value := 4 * significand * unit
    high := (4 * significand + 2) * unit
    closed := significand % 2 = 0 }

end GraphTape.Numeral
