import GraphTape.Numeral.Binary

/-!
# Shortest decimals

The decimal with the fewest digits that reads back as a given binary number. The search tries
one more digit at a time. On each decimal grid only the two neighbours of the value can lie in
its window when no coarser grid had a hit, so the first grid with a hit holds the answer: of two
hits the nearer one, and the upper one when they are equally near.
-/

namespace GraphTape.Numeral

/-- The number `digits * 10 ^ exponent`. -/
structure Decimal where
  digits : Nat
  exponent : Int
  deriving DecidableEq

/-- The same number without trailing zeros among its digits. -/
def Decimal.trim (d : Decimal) : Decimal :=
  if d.digits ≠ 0 ∧ d.digits % 10 = 0 then Decimal.trim ⟨d.digits / 10, d.exponent + 1⟩ else d
termination_by d.digits
decreasing_by omega

/-- How many decimal digits a natural number is written with. -/
def digitCount (n : Nat) : Nat :=
  (Nat.toDigits 10 n).length

/-- The exponent of the leading decimal digit of the positive fraction `num / den`. -/
def leadingExponent (num den : Nat) : Int :=
  let e : Int := digitCount num - digitCount den
  if den * tens e.toNat ≤ num * tens (-e).toNat then e else e - 1

namespace Window

/-- Whether `digits * 10 ^ exponent` lies in the window. -/
def contains (w : Window) (d : Decimal) : Bool :=
  let point := d.digits * tens d.exponent.toNat * w.den
  let low := w.low * tens (-d.exponent).toNat
  let high := w.high * tens (-d.exponent).toNat
  if w.closed then low ≤ point ∧ point ≤ high else low < point ∧ point < high

/-- The multiple of `10 ^ exponent` at or below the value. -/
def floorOn (w : Window) (exponent : Int) : Decimal :=
  ⟨w.value * tens (-exponent).toNat / (w.den * tens exponent.toNat), exponent⟩

/-- Whether the value is nearer to the multiple of `10 ^ exponent` below it than to the next
one. -/
def nearerBelow (w : Window) (exponent : Int) : Bool :=
  let unit := w.den * tens exponent.toNat
  2 * (w.value * tens (-exponent).toNat % unit) < unit

/-- The point of the grid of step `10 ^ exponent` that stands for the value, if one of the two
neighbours of the value lies in the window. -/
def pickOn (w : Window) (exponent : Int) : Option Decimal :=
  let below := w.floorOn exponent
  let above := { below with digits := below.digits + 1 }
  if w.contains below && (w.nearerBelow exponent || !w.contains above) then some below
  else if w.contains above then some above
  else none

/-- The decimal of fewest digits in the window. Seventeen digits always suffice. The hit can be
the next power of ten, which is then written with its single digit. -/
def shortest (w : Window) : Decimal :=
  let top := leadingExponent w.value w.den
  let hit := (List.range 17).findSome? fun (i : Nat) => w.pickOn (top - i)
  (hit.getD (w.floorOn (top - 16))).trim

end Window

end GraphTape.Numeral
