import Mathlib.Algebra.BigOperators.Group.Finset.Basic
import Mathlib.Algebra.Order.Field.Rat
import Mathlib.Algebra.Ring.Rat
import GraphTape.Proofs.Graph.Meaning

/-!
# Exact arithmetic

Most of this library holds of rounded operations. A statement about derivatives does not: it needs
sums that can be reordered and products that distribute. `Scalar.Exact` asks for the laws of a
commutative ring and for nothing about the transcendental functions, which a network reaches
only through its activations and losses.

* `Scalar.Exact.commRing`: the ring of an exact scalar type, on the operations of the scalars.
* `Scalar.sum_eq`, `Scalar.total_eq`: sums in a fixed order as sums in a ring.
* `Scalar.sum_entries`: a sum over the entries of a matrix.
* The rational numbers, as an exact type in which everything can be evaluated.
-/

namespace GraphTape

namespace Scalar

/-- The ring operations of a scalar type obey the laws of a commutative ring. -/
class Exact (α : Type) [Scalar α] : Prop where
  add_assoc : ∀ x y z : α, x + y + z = x + (y + z)
  add_comm : ∀ x y : α, x + y = y + x
  zero_add : ∀ x : α, 0 + x = x
  neg_add_cancel : ∀ x : α, -x + x = 0
  sub_eq_add_neg : ∀ x y : α, x - y = x + -y
  mul_assoc : ∀ x y z : α, x * y * z = x * (y * z)
  mul_comm : ∀ x y : α, x * y = y * x
  one_mul : ∀ x : α, 1 * x = x
  add_mul : ∀ x y z : α, (x + y) * z = x * z + y * z
  natCast_zero : ((0 : Nat) : α) = 0
  natCast_succ : ∀ n : Nat, ((n + 1 : Nat) : α) = (n : α) + 1

namespace Exact

variable {α : Type} [Scalar α] [Exact α]

theorem zero_mul (x : α) : 0 * x = 0 := by
  have hdouble : (0 : α) * x + 0 * x = 0 * x := by rw [← add_mul, zero_add]
  calc (0 : α) * x = -(0 * x) + 0 * x + 0 * x := by rw [neg_add_cancel, zero_add]
    _ = -(0 * x) + 0 * x := by rw [add_assoc, hdouble]
    _ = 0 := neg_add_cancel _

variable (α)

/-- The ring of an exact scalar type. -/
@[reducible] def commRing : CommRing α where
  add_assoc := add_assoc
  zero_add := zero_add
  add_zero x := (add_comm x 0).trans (zero_add x)
  add_comm := add_comm
  neg_add_cancel := neg_add_cancel
  sub_eq_add_neg := sub_eq_add_neg
  mul_assoc := mul_assoc
  mul_comm := mul_comm
  one_mul := one_mul
  mul_one x := (mul_comm x 1).trans (one_mul x)
  right_distrib := add_mul
  left_distrib x y z := by rw [mul_comm x, add_mul, mul_comm y, mul_comm z]
  zero_mul := zero_mul
  mul_zero x := (mul_comm x 0).trans (zero_mul x)
  natCast_zero := natCast_zero
  natCast_succ := natCast_succ
  nsmul := nsmulRec
  zsmul := zsmulRec

end Exact

attribute [local instance] Exact.commRing

section Sums

variable {α : Type} [Scalar α] [Exact α]

theorem sum_eq (n : Nat) (f : Nat → α) : Scalar.sum n f = ∑ i ∈ Finset.range n, f i := by
  induction n with
  | zero => rfl
  | succ n ih => rw [sum_succ, ih, Finset.sum_range_succ]

/-- A sum over the entries of a matrix, row by row. -/
theorem sum_entries (rows cols : Nat) (f : Nat → α) :
    ∑ i ∈ Finset.range (rows * cols), f i =
      ∑ r ∈ Finset.range rows, ∑ c ∈ Finset.range cols, f (r * cols + c) := by
  induction rows with
  | zero => simp
  | succ r ih => rw [Nat.succ_mul, Finset.sum_range_add, ih, Finset.sum_range_succ]

theorem total_eq (xs : List α) : Scalar.total xs = xs.sum := by
  have run : ∀ (xs : List α) (x : α), xs.foldl (· + ·) x = x + xs.sum := by
    intro xs
    induction xs with
    | nil => exact fun x => (Exact.add_comm x 0).trans (Exact.zero_add x) |>.symm
    | cons y ys ih =>
      intro x
      rw [List.foldl_cons, ih, List.sum_cons, Exact.add_assoc]
  cases xs with
  | nil => rfl
  | cons x xs => rw [total, run, List.sum_cons]

end Sums

end Scalar

/-! ## Rational numbers -/

/-- The rational numbers, with the first terms of their series in place of the transcendental
functions, of which no law is asked. -/
instance : Scalar ℚ where
  exp x := 1 + x
  log x := x - 1
  sqrt x := (1 + x) / 2
  isFinite _ := true
  decLt := inferInstance
  decLe := inferInstance

instance : Scalar.Exact ℚ where
  add_assoc := add_assoc
  add_comm := add_comm
  zero_add := zero_add
  neg_add_cancel := neg_add_cancel
  sub_eq_add_neg := sub_eq_add_neg
  mul_assoc := mul_assoc
  mul_comm := mul_comm
  one_mul := one_mul
  add_mul := add_mul
  natCast_zero := Nat.cast_zero
  natCast_succ := Nat.cast_succ

end GraphTape
