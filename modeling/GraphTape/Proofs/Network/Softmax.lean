import Mathlib.Algebra.BigOperators.Field
import Mathlib.Algebra.Order.BigOperators.Group.Finset
import Mathlib.Order.Bounds.Basic
import GraphTape.Proofs.Buffer.Part
import GraphTape.Proofs.Network.Vector
import GraphTape.Proofs.Scalar.Real

/-!
# The softmax over the reals

A softmax subtracts the greatest of the scaled entries before it takes exponentials, and works in
two passes over one stretch of a buffer. But for the rounding this is the quotient of exponentials
that its definition asks for, whatever the sign of the gain, and no exponential is ever taken of a
positive number.

* `Activation.exponent`, `Activation.divisor`: what the two passes work with, and
  `Activation.writeSoftmax_eq`, that they do.
* `Scalar.isGreatest_maxBelow`: the greatest of the first entries.
* `Activation.SumsToOne`: the entries of a softmax.
* `Activation.softmax_is_safe`: the two passes for any scalars, and what they come to over the
  reals.
-/

namespace GraphTape

open Finset

/-! ## The greatest entry -/

namespace Scalar

/-- What has been seen after `m` entries is the greatest of them and of the start. -/
theorem isGreatest_fold_maxNum (f : ℕ → ℝ) (x : ℝ) (m : ℕ) :
    IsGreatest {y | y = x ∨ ∃ i < m, f i = y} (m.fold (fun i _ y => maxNum y (f i)) x) := by
  induction m with
  | zero => exact ⟨.inl rfl, fun y hy => hy.elim Eq.le (by simp)⟩
  | succ m ih =>
    obtain ⟨hmem, hbound⟩ := ih
    rw [Nat.fold_succ, maxNum_real]
    constructor
    · rcases max_choice (m.fold (fun i _ y => maxNum y (f i)) x) (f m) with hmax | hmax
      · rw [hmax]
        exact hmem.imp_right fun ⟨i, hi, hy⟩ => ⟨i, by omega, hy⟩
      · exact .inr ⟨m, m.lt_succ_self, hmax.symm⟩
    · rintro y (rfl | ⟨i, hi, rfl⟩)
      · exact (hbound (.inl rfl)).trans (le_max_left _ _)
      · obtain hlt | rfl := Nat.lt_succ_iff_lt_or_eq.1 hi
        · exact (hbound (.inr ⟨i, hlt, rfl⟩)).trans (le_max_left _ _)
        · exact le_max_right _ _

theorem isGreatest_maxBelow {n : ℕ} (hn : 0 < n) (f : ℕ → ℝ) :
    IsGreatest {y | ∃ i < n, f i = y} (maxBelow n f) := by
  obtain ⟨hmem, hbound⟩ := isGreatest_fold_maxNum f (f 0) n
  exact ⟨hmem.elim (fun hfirst => ⟨0, hn, hfirst.symm⟩) id, fun y hy => hbound (.inr hy)⟩

end Scalar

namespace Activation

/-! ## Two passes -/

section Passes

variable {α : Type} [Scalar α] {b : Buffer α} {start n : ℕ} {x : ℕ → α}

/-- The exponent of entry `i`: the scaled entry less the greatest of the scaled entries. -/
def exponent (gain : α) (n : ℕ) (x : ℕ → α) (i : ℕ) : α :=
  gain * x i - Scalar.maxBelow n fun j => gain * x j

/-- The sum of the exponentials, by which each of them is divided. -/
def divisor (gain : α) (n : ℕ) (x : ℕ → α) : α :=
  Scalar.sum n fun i => Scalar.exp (exponent gain n x i)

/-- The first pass writes the exponentials of all exponents, and the second one divides what the
first has left by the divisor. -/
theorem writeSoftmax_eq (gain : α) (h : start + n ≤ b.size) :
    writeSoftmax gain b start n x =
      (b.write start n fun i => Scalar.exp (exponent gain n x i)).update start n
        fun _ e => e / divisor gain n x := by
  have hfirst := Buffer.write_fills h fun i => Scalar.exp (exponent gain n x i)
  have htotal : Scalar.sum n ((b.write start n fun i => Scalar.exp (exponent gain n x i)).view
      start) = divisor gain n x := Scalar.sum_congr hfirst.view_eq
  rw [← htotal]
  rfl

theorem vector_softmax (gain : α) (i : ℕ) :
    (softmax gain).vector n x i = Scalar.exp (exponent gain n x i) / divisor gain n x := rfl

end Passes

/-! ## Exponents -/

variable {gain : ℝ} {n : ℕ} {x : ℕ → ℝ}

theorem exponent_nonpos (gain : ℝ) (x : ℕ → ℝ) {i : ℕ} (hi : i < n) : exponent gain n x i ≤ 0 :=
  sub_nonpos.2 ((Scalar.isGreatest_maxBelow (i.zero_le.trans_lt hi) _).2 ⟨i, hi, rfl⟩)

theorem exists_exponent_eq_zero (hn : 0 < n) (gain : ℝ) (x : ℕ → ℝ) :
    ∃ i < n, exponent gain n x i = 0 := by
  obtain ⟨i, hi, htop⟩ := (Scalar.isGreatest_maxBelow hn fun j => gain * x j).1
  exact ⟨i, hi, sub_eq_zero.2 htop⟩

/-- A constant that is added to all entries is subtracted with the greatest of them. -/
theorem exponent_add_const (hn : 0 < n) (gain : ℝ) (x : ℕ → ℝ) (c : ℝ) (i : ℕ) :
    exponent gain n (fun j => x j + c) i = exponent gain n x i := by
  have hshift : Scalar.maxBelow n (fun j => gain * (x j + c)) =
      Scalar.maxBelow n (fun j => gain * x j) + gain * c := by
    obtain ⟨⟨k, hk, htop⟩, hbound⟩ := Scalar.isGreatest_maxBelow hn fun j => gain * x j
    refine (Scalar.isGreatest_maxBelow hn fun j => gain * (x j + c)).unique ⟨⟨k, hk, ?_⟩, ?_⟩
    · rw [← htop, mul_add]
    · rintro y ⟨j, hj, rfl⟩
      rw [mul_add]
      exact add_le_add_left (hbound ⟨j, hj, rfl⟩) _
  rw [exponent, exponent, hshift, mul_add]
  exact add_sub_add_right_eq_sub _ _ _

/-! ## Entries -/

theorem divisor_eq (gain : ℝ) (n : ℕ) (x : ℕ → ℝ) :
    divisor gain n x = ∑ i ∈ range n, Real.exp (exponent gain n x i) :=
  Scalar.sum_real ..

/-- One exponential is one, and none is greater. -/
theorem divisor_mem_Icc (hn : 0 < n) (gain : ℝ) (x : ℕ → ℝ) :
    divisor gain n x ∈ Set.Icc (1 : ℝ) n := by
  rw [divisor_eq]
  constructor
  · obtain ⟨i, hi, hzero⟩ := exists_exponent_eq_zero hn gain x
    calc (1 : ℝ) = Real.exp (exponent gain n x i) := by rw [hzero, Real.exp_zero]
      _ ≤ ∑ i ∈ range n, Real.exp (exponent gain n x i) :=
        single_le_sum (fun j _ => (Real.exp_pos _).le) (mem_range.2 hi)
  · calc ∑ i ∈ range n, Real.exp (exponent gain n x i) ≤ ∑ i ∈ range n, (1 : ℝ) :=
        sum_le_sum fun i hi => Real.exp_le_one_iff.2 (exponent_nonpos gain x (mem_range.1 hi))
      _ = n := by rw [sum_const, card_range, nsmul_one]

/-- The greatest entry cancels out of the quotient. -/
theorem vector_softmax_eq_div (gain : ℝ) (n : ℕ) (x : ℕ → ℝ) (i : ℕ) :
    (softmax gain).vector n x i =
      Real.exp (gain * x i) / ∑ j ∈ range n, Real.exp (gain * x j) := by
  have hexp : ∀ j, Real.exp (exponent gain n x j) =
      Real.exp (gain * x j) * Real.exp (-Scalar.maxBelow n fun j => gain * x j) := fun j => by
    rw [← Real.exp_add, ← sub_eq_add_neg]
    rfl
  rw [vector_softmax, divisor_eq]
  simp only [hexp, ← sum_mul]
  exact (congrArg (· / _) (hexp i)).trans (mul_div_mul_right _ _ (Real.exp_ne_zero _))

/-- The entries of a softmax are positive, sum to one, and come in the order of the scaled
entries. -/
structure SumsToOne (gain : ℝ) (n : ℕ) (x p : ℕ → ℝ) : Prop where
  eq_div : ∀ i < n, p i = Real.exp (gain * x i) / ∑ j ∈ range n, Real.exp (gain * x j)
  mem_Ioc : ∀ i < n, p i ∈ Set.Ioc (0 : ℝ) 1
  sum_eq_one : ∑ i ∈ range n, p i = 1
  le_iff_le : ∀ i < n, ∀ j < n, p i ≤ p j ↔ gain * x i ≤ gain * x j

theorem sumsToOne_vector (hn : 0 < n) (gain : ℝ) (x : ℕ → ℝ) :
    SumsToOne gain n x ((softmax gain).vector n x) := by
  have hpos : 0 < ∑ j ∈ range n, Real.exp (gain * x j) :=
    sum_pos (fun j _ => Real.exp_pos _) ⟨0, mem_range.2 hn⟩
  refine ⟨fun i _ => vector_softmax_eq_div gain n x i, fun i hi => ⟨?_, ?_⟩, ?_, fun i _ j _ => ?_⟩
  · rw [vector_softmax_eq_div]
    exact div_pos (Real.exp_pos _) hpos
  · rw [vector_softmax_eq_div, div_le_one hpos]
    exact single_le_sum (f := fun j => Real.exp (gain * x j)) (fun j _ => (Real.exp_pos _).le)
      (mem_range.2 hi)
  · simp only [vector_softmax_eq_div]
    rw [← sum_div, div_self hpos.ne']
  · rw [vector_softmax_eq_div, vector_softmax_eq_div, div_le_div_iff_of_pos_right hpos,
      Real.exp_le_exp]

theorem SumsToOne.congr {p q : ℕ → ℝ} (hp : SumsToOne gain n x p) (h : ∀ i < n, q i = p i) :
    SumsToOne gain n x q where
  eq_div i hi := (h i hi).trans (hp.eq_div i hi)
  mem_Ioc i hi := by
    rw [h i hi]
    exact hp.mem_Ioc i hi
  sum_eq_one := (sum_congr rfl fun i hi => h i (mem_range.1 hi)).trans hp.sum_eq_one
  le_iff_le i hi j hj := by
    rw [h i hi, h j hj]
    exact hp.le_iff_le i hi j hj

/-- **A softmax with shifted exponents is the plain one, and is safe.** Whatever the scalars are,
the first pass writes the exponential of each exponent, the second one divides by their sum, and the
rest of the buffer is left alone. No law of arithmetic enters here, so these are the exponents that
exponentials are taken of, and not others with the same quotients.

Over the reals no exponent is positive and one of them is zero, so that the divisor is at least one
and at most the number of entries. What is written are the quotients of the exponentials of the
scaled entries themselves. They are positive, sum to one, come in the order of the scaled entries,
and stay the same when a constant is added to all entries. -/
theorem softmax_is_safe :
    (∀ {α : Type} [Scalar α] (gain : α) (x : ℕ → α) {b : Buffer α} {start n : ℕ},
      start + n ≤ b.size →
        (softmax gain).apply b start n x =
            (b.write start n fun i => Scalar.exp (exponent gain n x i)).update start n
              (fun _ e => e / divisor gain n x) ∧
          ((softmax gain).apply b start n x).size = b.size ∧
          ∀ k, k < start ∨ start + n ≤ k → ((softmax gain).apply b start n x)[k]? = b[k]?) ∧
    ∀ (gain : ℝ) (x : ℕ → ℝ) {n : ℕ}, 0 < n →
      ((∀ i < n, exponent gain n x i ≤ 0) ∧ (∃ i < n, exponent gain n x i = 0) ∧
        divisor gain n x ∈ Set.Icc (1 : ℝ) n) ∧
      ∀ {b : Buffer ℝ} {start : ℕ}, start + n ≤ b.size →
        SumsToOne gain n x (((softmax gain).apply b start n x).view start) ∧
          ∀ c, (softmax gain).apply b start n (fun i => x i + c) =
            (softmax gain).apply b start n x := by
  refine ⟨fun gain x b start n h => ?_, fun gain x n hn => ⟨?_, fun {b start} h => ?_⟩⟩
  · have hfills := apply_fills (x := x) (softmax gain) h
    exact ⟨writeSoftmax_eq gain h, hfills.size_eq, hfills.getElem?_eq⟩
  · exact ⟨fun i hi => exponent_nonpos gain x hi, exists_exponent_eq_zero hn gain x,
      divisor_mem_Icc hn gain x⟩
  · have hfills := apply_fills (x := x) (softmax gain) h
    refine ⟨(sumsToOne_vector hn gain x).congr hfills.view_eq, fun c => ?_⟩
    refine (apply_fills (softmax gain) h).unique hfills fun i _ => ?_
    simp only [vector_softmax, divisor, exponent_add_const hn]

/-- Entries whose order a negative gain turns around, in the middle of a longer buffer. -/
theorem softmax_is_safe_reversed :
    0 < 2 ∧ 1 + 2 ≤ (#[7, 7, 7, 7] : Buffer ℝ).size ∧
      (softmax (-1 : ℝ)).apply #[7, 7, 7, 7] 1 2 Nat.cast =
        (Buffer.write #[7, 7, 7, 7] 1 2 fun i => Real.exp (exponent (-1) 2 Nat.cast i)).update 1 2
          (fun _ e => e / divisor (-1) 2 Nat.cast) ∧
      (∃ i < 2, exponent (-1 : ℝ) 2 Nat.cast i = 0) ∧
      SumsToOne (-1) 2 Nat.cast
        (((softmax (-1 : ℝ)).apply #[7, 7, 7, 7] 1 2 Nat.cast).view 1) := by
  have hroom : 1 + 2 ≤ (#[7, 7, 7, 7] : Buffer ℝ).size := Nat.le_succ 3
  obtain ⟨hpasses, hreals⟩ := softmax_is_safe
  obtain ⟨⟨-, hzero, -⟩, hwritten⟩ := hreals (-1) Nat.cast Nat.two_pos
  exact ⟨Nat.two_pos, hroom, (hpasses (-1) Nat.cast hroom).1, hzero, (hwritten hroom).1⟩

end Activation

end GraphTape
