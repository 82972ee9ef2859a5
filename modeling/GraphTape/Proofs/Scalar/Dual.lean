import GraphTape.Proofs.Graph.Meaning

/-!
# Dual numbers

A dual number `a + b * ε`, with `ε * ε = 0`, carries a number and its derivative along some
direction. Every operation of the scalars extends to dual numbers by the rules of calculus, so a
computation over any scalars can be read over dual numbers, and then its second part is the
derivative of its first. The operations are those of the scalars, in a fixed order; no law of
arithmetic is used here.
-/

namespace GraphTape

/-- A number with its derivative along some direction. -/
@[ext]
structure Dual (α : Type) where
  /-- The number itself. -/
  re : α
  /-- Its derivative. -/
  eps : α

namespace Dual

variable {α : Type} [Scalar α]

/-- A number that does not depend on the direction. -/
def const (x : α) : Dual α := ⟨x, 0⟩

instance : Add (Dual α) := ⟨fun x y => ⟨x.re + y.re, x.eps + y.eps⟩⟩

instance : Sub (Dual α) := ⟨fun x y => ⟨x.re - y.re, x.eps - y.eps⟩⟩

instance : Mul (Dual α) := ⟨fun x y => ⟨x.re * y.re, x.re * y.eps + x.eps * y.re⟩⟩

instance : Div (Dual α) :=
  ⟨fun x y => ⟨x.re / y.re, (x.eps * y.re - x.re * y.eps) / (y.re * y.re)⟩⟩

instance : Neg (Dual α) := ⟨fun x => ⟨-x.re, -x.eps⟩⟩

instance : Zero (Dual α) := ⟨const 0⟩

instance : One (Dual α) := ⟨const 1⟩

instance : NatCast (Dual α) := ⟨fun n => const n⟩

instance : OfScientific (Dual α) := ⟨fun m s e => const (OfScientific.ofScientific m s e)⟩

instance : LT (Dual α) := ⟨fun x y => x.re < y.re⟩

instance : LE (Dual α) := ⟨fun x y => x.re ≤ y.re⟩

/-- Dual numbers compare by their numbers alone. -/
instance : Scalar (Dual α) where
  exp x := ⟨Scalar.exp x.re, x.eps * Scalar.exp x.re⟩
  log x := ⟨Scalar.log x.re, x.eps / x.re⟩
  sqrt x := ⟨Scalar.sqrt x.re, x.eps / (Scalar.sqrt x.re + Scalar.sqrt x.re)⟩
  isFinite x := Scalar.isFinite x.re && Scalar.isFinite x.eps
  decLt x y := Scalar.decLt x.re y.re
  decLe x y := Scalar.decLe x.re y.re

@[simp] theorem re_zero : (0 : Dual α).re = 0 := rfl

@[simp] theorem eps_zero : (0 : Dual α).eps = 0 := rfl

@[simp] theorem re_add (x y : Dual α) : (x + y).re = x.re + y.re := rfl

@[simp] theorem eps_add (x y : Dual α) : (x + y).eps = x.eps + y.eps := rfl

@[simp] theorem re_mul (x y : Dual α) : (x * y).re = x.re * y.re := rfl

@[simp] theorem eps_mul (x y : Dual α) : (x * y).eps = x.re * y.eps + x.eps * y.re := rfl

@[simp] theorem re_const (x : α) : (const x).re = x := rfl

@[simp] theorem eps_const (x : α) : (const x).eps = 0 := rfl

@[simp] theorem re_one : (1 : Dual α).re = 1 := rfl

@[simp] theorem eps_one : (1 : Dual α).eps = 0 := rfl

@[simp] theorem re_natCast (n : Nat) : (n : Dual α).re = n := rfl

@[simp] theorem eps_natCast (n : Nat) : (n : Dual α).eps = 0 := rfl

@[simp] theorem re_sub (x y : Dual α) : (x - y).re = x.re - y.re := rfl

@[simp] theorem eps_sub (x y : Dual α) : (x - y).eps = x.eps - y.eps := rfl

@[simp] theorem re_neg (x : Dual α) : (-x).re = -x.re := rfl

@[simp] theorem eps_neg (x : Dual α) : (-x).eps = -x.eps := rfl

@[simp] theorem re_div (x y : Dual α) : (x / y).re = x.re / y.re := rfl

@[simp] theorem eps_div (x y : Dual α) :
    (x / y).eps = (x.eps * y.re - x.re * y.eps) / (y.re * y.re) := rfl

@[simp] theorem re_exp (x : Dual α) : (Scalar.exp x).re = Scalar.exp x.re := rfl

@[simp] theorem eps_exp (x : Dual α) : (Scalar.exp x).eps = x.eps * Scalar.exp x.re := rfl

@[simp] theorem eps_log (x : Dual α) : (Scalar.log x).eps = x.eps / x.re := rfl

/-! ## Sums -/

@[simp] theorem re_sum (n : Nat) (f : Nat → Dual α) :
    (Scalar.sum n f).re = Scalar.sum n fun i => (f i).re := by
  induction n with
  | zero => rfl
  | succ n ih => rw [Scalar.sum_succ, Scalar.sum_succ, re_add, ih]

@[simp] theorem eps_sum (n : Nat) (f : Nat → Dual α) :
    (Scalar.sum n f).eps = Scalar.sum n fun i => (f i).eps := by
  induction n with
  | zero => rfl
  | succ n ih => rw [Scalar.sum_succ, Scalar.sum_succ, eps_add, ih]

/-- Both parts of a sum are the sums of the parts. -/
theorem total_parts (xs : List (Dual α)) :
    (Scalar.total xs).re = Scalar.total (xs.map re) ∧
      (Scalar.total xs).eps = Scalar.total (xs.map eps) := by
  have run : ∀ (xs : List (Dual α)) (x : Dual α),
      (xs.foldl (· + ·) x).re = (xs.map re).foldl (· + ·) x.re ∧
        (xs.foldl (· + ·) x).eps = (xs.map eps).foldl (· + ·) x.eps := by
    intro xs
    induction xs with
    | nil => exact fun x => ⟨rfl, rfl⟩
    | cons y ys ih => exact fun x => ih (x + y)
  cases xs with
  | nil => exact ⟨rfl, rfl⟩
  | cons x xs => exact run xs x

@[simp] theorem re_total (xs : List (Dual α)) :
    (Scalar.total xs).re = Scalar.total (xs.map re) := (total_parts xs).1

@[simp] theorem eps_total (xs : List (Dual α)) :
    (Scalar.total xs).eps = Scalar.total (xs.map eps) := (total_parts xs).2

end Dual

end GraphTape
