/-!
# Scalars

The numbers a network computes with. `Scalar` asks for operations only and for no law, so a
definition over a scalar type fixes the order in which rounded operations are carried out, and
the same definition can be read over a field when the rounding does not matter.

* `Scalar.nan`: what stands for a number where there is none.
* `Scalar.sum`: a sum taken from left to right, starting from zero.
* `Scalar.maxNum`, `Scalar.minNum`: the larger and the smaller of two numbers, where a value
  that is not a number gives way to the other one.
* `Scalar.clamp`: a number brought into an interval.
* `Scalar.power`: a power with a natural exponent, by repeated squaring.
-/

namespace GraphTape

/-- The operations that networks, losses and optimizers need of their numbers. -/
class Scalar (α : Type) extends Add α, Sub α, Mul α, Div α, Neg α, Zero α, One α, NatCast α,
    OfScientific α, LT α, LE α where
  /-- The exponential function. -/
  exp : α → α
  /-- The natural logarithm. -/
  log : α → α
  /-- The square root. -/
  sqrt : α → α
  /-- Whether the value is a number and not infinite. -/
  isFinite : α → Bool
  decLt : DecidableLT α
  decLe : DecidableLE α

namespace Scalar

variable {α : Type} [Scalar α]

instance : DecidableLT α := Scalar.decLt

instance : DecidableLE α := Scalar.decLe

/-- Zero divided by zero, which in floating point is not a number. -/
def nan : α := 0 / 0

/-- The sum `f 0 + f 1 + ... + f (n - 1)`, added from left to right to zero. -/
def sum (n : Nat) (f : Nat → α) : α :=
  n.fold (fun i _ s => s + f i) 0

/-- The larger of two numbers. A value that does not compare with itself loses to the other. -/
def maxNum (x y : α) : α :=
  if x < y then y else if x ≤ x then x else y

/-- The smaller of two numbers. A value that does not compare with itself loses to the other. -/
def minNum (x y : α) : α :=
  if y < x then y else if x ≤ x then x else y

/-- The greatest of `f 0, ..., f (n - 1)`, or `f 0` when `n` is zero. -/
def maxBelow (n : Nat) (f : Nat → α) : α :=
  n.fold (fun i _ m => maxNum m (f i)) (f 0)

/-- `x` brought into the interval from `low` to `high`. A value that does not compare stays. -/
def clamp (low high x : α) : α :=
  let raised := if x < low then low else x
  if high < raised then high else raised

/-- The accumulator of `power`: `r * x ^ n`, squaring `x` once for each binary digit of `n`. -/
def powerFrom (r x : α) (n : Nat) : α :=
  let r := if n % 2 = 1 then r * x else r
  if h : n / 2 = 0 then r else powerFrom r (x * x) (n / 2)
termination_by n
decreasing_by omega

/-- `x` raised to the natural power `n`, by repeated squaring from the lowest binary digit. -/
def power (x : α) (n : Nat) : α :=
  powerFrom 1 x n

theorem sum_succ (n : Nat) (f : Nat → α) : sum (n + 1) f = sum n f + f n := by
  simp [sum]

theorem sum_congr {n : Nat} {f g : Nat → α} (h : ∀ i < n, f i = g i) : sum n f = sum n g := by
  induction n with
  | zero => rfl
  | succ n ih =>
    rw [sum_succ, sum_succ, ih fun i hi => h i (by omega), h n (by omega)]

end Scalar

end GraphTape
