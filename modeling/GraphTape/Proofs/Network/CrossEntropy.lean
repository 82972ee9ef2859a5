import Mathlib.Algebra.Order.BigOperators.Group.Finset
import Mathlib.Analysis.Convex.Basic
import Mathlib.Data.Sign.Basic
import Mathlib.Tactic.Linarith
import Mathlib.Tactic.NormNum
import GraphTape.Proofs.Buffer.Part
import GraphTape.Proofs.Network.Vector
import GraphTape.Proofs.Scalar.Real

/-!
# The cross-entropy over the reals

The cross-entropy and its derivative both move a value into the interval of probabilities before
they take logarithms and quotients of it, so they are defined for every value whatever. For targets
between zero and one this bounds them: a value costs at most the logarithm of the inverse margin,
and no derivative is greater than the inverse margin.

* `Loss.probability_mem_Icc`, `Loss.divisor_ge`: what logarithms and quotients are taken of.
* `Loss.neg_logLikelihood_mem_Icc`: what one value contributes.
* `Loss.abs_slope_crossEntropy_le`, `Loss.sign_slope_crossEntropy`: the derivative in one value.
* `Loss.crossEntropy_is_bounded`: the loss and the derivatives of a vector.
-/

namespace GraphTape

open Finset

namespace Loss

/-! ## Probabilities -/

theorem margin_pos : (0 : ℝ) < margin := by
  show (0 : ℝ) < 1e-12
  norm_num

theorem margin_le_one_sub_margin : (margin : ℝ) ≤ 1 - margin := by
  show (1e-12 : ℝ) ≤ 1 - 1e-12
  norm_num

variable {n : ℕ} {y : ℝ}

theorem probability_eq (a : ℝ) : probability a = max margin (min a (1 - margin)) :=
  Scalar.clamp_real margin_le_one_sub_margin a

theorem probability_mem_Icc (a : ℝ) : probability a ∈ Set.Icc (margin : ℝ) (1 - margin) :=
  Scalar.clamp_mem_Icc margin_le_one_sub_margin a

theorem probability_pos (a : ℝ) : 0 < probability a :=
  margin_pos.trans_le (probability_mem_Icc a).1

theorem margin_le_one_sub_probability (a : ℝ) : margin ≤ 1 - probability a :=
  le_sub_comm.1 (probability_mem_Icc a).2

theorem one_sub_probability_pos (a : ℝ) : 0 < 1 - probability a :=
  margin_pos.trans_le (margin_le_one_sub_probability a)

/-- The divisor of a derivative is least at the ends of the interval of probabilities. -/
theorem divisor_ge (a : ℝ) :
    margin * (1 - margin) ≤ probability a * (1 - probability a) := by
  obtain ⟨hlow, hhigh⟩ := probability_mem_Icc a
  have hinside : 0 ≤ (probability a - margin) * (1 - margin - probability a) :=
    mul_nonneg (sub_nonneg.2 hlow) (sub_nonneg.2 hhigh)
  linarith only [hinside]

/-! ## One value -/

/-- The logarithm of what is at least the margin and at most one. -/
theorem log_mem_Icc {p : ℝ} (hlow : margin ≤ p) (hhigh : p ≤ 1) :
    Real.log p ∈ Set.Icc (Real.log margin) 0 :=
  ⟨Real.log_le_log margin_pos hlow, Real.log_nonpos (margin_pos.le.trans hlow) hhigh⟩

/-- A value contributes an average of two logarithms, weighted by its target. -/
theorem neg_logLikelihood_mem_Icc (a : ℝ) (hy : y ∈ Set.Icc (0 : ℝ) 1) :
    -logLikelihood a y ∈ Set.Icc 0 (Real.log (1 / margin)) := by
  have hlog := log_mem_Icc (probability_mem_Icc a).1
    (sub_nonneg.1 (one_sub_probability_pos a).le)
  have hlogcompl := log_mem_Icc (margin_le_one_sub_probability a)
    (sub_le_self 1 (probability_pos a).le)
  obtain ⟨hle, hnonpos⟩ : logLikelihood a y ∈ Set.Icc (Real.log margin) 0 :=
    convex_Icc _ _ hlog hlogcompl hy.1 (sub_nonneg.2 hy.2) (add_sub_cancel y 1)
  rw [one_div, Real.log_inv]
  exact ⟨neg_nonneg.2 hnonpos, neg_le_neg hle⟩

/-- The distance of a probability from its target makes up for one of the factors of the divisor. -/
theorem abs_slope_crossEntropy_le {a y : ℕ → ℝ} {i : ℕ} (hy : y i ∈ Set.Icc (0 : ℝ) 1) :
    |crossEntropy.slope n a y i| ≤ 1 / margin := by
  have hpos := probability_pos (a i)
  have hcompl := one_sub_probability_pos (a i)
  show |(probability (a i) - y i) / (probability (a i) * (1 - probability (a i)))| ≤ 1 / margin
  rw [abs_div, abs_of_pos (mul_pos hpos hcompl), div_le_div_iff₀ (mul_pos hpos hcompl) margin_pos,
    one_mul]
  rcases abs_cases (probability (a i) - y i) with ⟨habs, -⟩ | ⟨habs, -⟩
  · exact mul_le_mul (habs.trans_le (sub_le_self _ hy.1)) (margin_le_one_sub_probability (a i))
      margin_pos.le hpos.le
  · calc |probability (a i) - y i| * margin
        ≤ (1 - probability (a i)) * probability (a i) :=
        mul_le_mul (habs.trans_le (by linarith only [hy.2])) (probability_mem_Icc (a i)).1
          margin_pos.le hcompl.le
      _ = probability (a i) * (1 - probability (a i)) := mul_comm _ _

theorem sign_slope_crossEntropy (a y : ℕ → ℝ) (i : ℕ) :
    SignType.sign (crossEntropy.slope n a y i) = SignType.sign (probability (a i) - y i) := by
  have hdivisor := mul_pos (probability_pos (a i)) (one_sub_probability_pos (a i))
  calc SignType.sign (crossEntropy.slope n a y i)
      = SignType.sign ((probability (a i) - y i) *
          (probability (a i) * (1 - probability (a i)))⁻¹) := rfl
    _ = SignType.sign (probability (a i) - y i) := by
      rw [sign_mul, sign_pos (inv_pos.2 hdivisor), mul_one]

/-! ## A vector -/

variable {a y : ℕ → ℝ}

theorem value_crossEntropy_eq_sum (n : ℕ) (a y : ℕ → ℝ) :
    crossEntropy.value n a y = ∑ i ∈ range n, -logLikelihood (a i) (y i) := by
  induction n with
  | zero => rfl
  | succ n ih => rw [value_crossEntropy_succ, ih, sum_range_succ, sub_eq_add_neg]

theorem value_crossEntropy_mem_Icc (hy : ∀ i < n, y i ∈ Set.Icc (0 : ℝ) 1) :
    crossEntropy.value n a y ∈ Set.Icc 0 (n * Real.log (1 / margin)) := by
  have hone : ∀ i ∈ range n, -logLikelihood (a i) (y i) ∈ Set.Icc 0 (Real.log (1 / margin)) :=
    fun i hi => neg_logLikelihood_mem_Icc (a i) (hy i (mem_range.1 hi))
  rw [value_crossEntropy_eq_sum]
  refine ⟨sum_nonneg fun i hi => (hone i hi).1, ?_⟩
  calc ∑ i ∈ range n, -logLikelihood (a i) (y i) ≤ (range n).card • Real.log (1 / margin) :=
        sum_le_card_nsmul _ _ _ fun i hi => (hone i hi).2
    _ = n * Real.log (1 / margin) := by rw [card_range, nsmul_eq_mul]

/-- **A cross-entropy is bounded, and defined everywhere.** Any value is moved into the interval of
probabilities. So for targets between zero and one, the logarithms that make up the loss are taken
of numbers not below the margin, and the quotients that make up the derivatives have divisors away
from zero. The loss is not negative and at most the logarithm of the inverse margin for each value;
a derivative is at most the inverse margin and has the sign of the distance of the clamped value
from its target. Only the entries of the vectors up to their length count, and only the stretch of
the derivatives is written. -/
theorem crossEntropy_is_bounded (hy : ∀ i < n, y i ∈ Set.Icc (0 : ℝ) 1) {b : Buffer ℝ} {start : ℕ}
    (h : start + n ≤ b.size) :
    (∀ x : ℝ, probability x = max margin (min x (1 - margin))) ∧
    (crossEntropy.value n a y = ∑ i ∈ range n, -(y i * Real.log (probability (a i)) +
        (1 - y i) * Real.log (1 - probability (a i))) ∧
      ∀ i < n, margin ≤ probability (a i) ∧ margin ≤ 1 - probability (a i)) ∧
    crossEntropy.value n a y ∈ Set.Icc 0 (n * Real.log (1 / margin)) ∧
    (0 : ℝ) < margin * (1 - margin) ∧
    (∀ i < n,
      (crossEntropy.writeSlopes b start n a y).view start i =
        (probability (a i) - y i) / (probability (a i) * (1 - probability (a i))) ∧
      margin * (1 - margin) ≤ probability (a i) * (1 - probability (a i)) ∧
      |(crossEntropy.writeSlopes b start n a y).view start i| ≤ 1 / margin ∧
      SignType.sign ((crossEntropy.writeSlopes b start n a y).view start i) =
        SignType.sign (probability (a i) - y i)) ∧
    ((crossEntropy.writeSlopes b start n a y).size = b.size ∧
      ∀ k, k < start ∨ start + n ≤ k → (crossEntropy.writeSlopes b start n a y)[k]? = b[k]?) ∧
    ∀ a' y' : ℕ → ℝ, (∀ i < n, a' i = a i) → (∀ i < n, y' i = y i) →
      crossEntropy.value n a' y' = crossEntropy.value n a y ∧
      crossEntropy.writeSlopes b start n a' y' = crossEntropy.writeSlopes b start n a y := by
  have hfills := writeSlopes_fills (a := a) (y := y) crossEntropy h
  refine ⟨probability_eq, ⟨value_crossEntropy_eq_sum n a y, fun i _ =>
      ⟨(probability_mem_Icc (a i)).1, margin_le_one_sub_probability (a i)⟩⟩,
    value_crossEntropy_mem_Icc hy,
    mul_pos margin_pos (margin_pos.trans_le margin_le_one_sub_margin), fun i hi => ?_,
    ⟨hfills.size_eq, hfills.getElem?_eq⟩, fun a' y' ha' hy' => ⟨?_, ?_⟩⟩
  · rw [hfills.view_eq i hi]
    exact ⟨rfl, divisor_ge (a i), abs_slope_crossEntropy_le (hy i hi),
      sign_slope_crossEntropy a y i⟩
  · exact value_congr crossEntropy ha' hy'
  · exact (writeSlopes_fills crossEntropy h).unique hfills fun i hi =>
      slope_congr crossEntropy (ha' i hi) (hy' i hi)

/-- Values on both sides of the interval of probabilities, in the middle of a longer buffer. -/
theorem crossEntropy_is_bounded_outside :
    (∀ i < 2, (fun i : ℕ => (i : ℝ)) i ∈ Set.Icc (0 : ℝ) 1) ∧
      1 + 2 ≤ (#[7, 7, 7, 7] : Buffer ℝ).size ∧
      crossEntropy.value 2 (fun i => 3 - 5 * (i : ℝ)) (fun i => (i : ℝ)) ∈
        Set.Icc 0 ((2 : ℕ) * Real.log (1 / margin)) ∧
      |(crossEntropy.writeSlopes #[7, 7, 7, 7] 1 2 (fun i => 3 - 5 * (i : ℝ))
        fun i => (i : ℝ)).view 1 0| ≤ 1 / margin ∧
      probability (3 : ℝ) = max margin (min 3 (1 - margin)) := by
  have htargets : ∀ i < 2, (fun i : ℕ => (i : ℝ)) i ∈ Set.Icc (0 : ℝ) 1 := fun i hi =>
    ⟨i.cast_nonneg, Nat.cast_le_one.2 (Nat.lt_succ_iff.1 hi)⟩
  have hroom : 1 + 2 ≤ (#[7, 7, 7, 7] : Buffer ℝ).size := Nat.le_succ 3
  obtain ⟨hclamp, -, hvalue, -, hslopes, -⟩ :=
    crossEntropy_is_bounded (a := fun i => 3 - 5 * (i : ℝ)) htargets hroom
  exact ⟨htargets, hroom, hvalue, (hslopes 0 Nat.two_pos).2.2.1, hclamp 3⟩

end Loss

end GraphTape
