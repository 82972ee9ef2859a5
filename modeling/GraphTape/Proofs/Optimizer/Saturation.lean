import Mathlib.Algebra.Order.Archimedean.Basic
import Mathlib.Algebra.Order.Ring.Pow
import Mathlib.Order.Bounds.Basic
import Mathlib.Tactic.Linarith
import Mathlib.Tactic.NormNum
import GraphTape.Proofs.Optimizer.Averages

/-!
# Held corrections

The exponent of a bias correction stops at `maxExponent`. From then on the correction stays where it
is, while `1 - beta ^ t` goes on to one. How far the two come apart depends on what is left of the
power by then: nothing that rounding would not hide if the decay is at most `1 - 2 ^ -25`, and more
than that from `1 - 2 ^ -26` on, although every decay below one is accepted.

* `heldError`: how far a held correction is off.
* `isLUB_heldError`: what it comes to in the long run.
* `held_corrections_are_off_by_power`: the error of the corrections of an accepted configuration.
* `correction_is_held_too_early`: an accepted decay whose correction is far off.
-/

namespace GraphTape

/-- Half of the distance from one to the next greater number of double precision. -/
noncomputable def roundoff : ℝ := (1 / 2) ^ 53

/-- How far the correction of update `t` is from `1 - beta ^ t`. -/
noncomputable def heldError (beta : ℝ) (t : ℕ) : ℝ := |biasCorrection beta t - (1 - beta ^ t)|

variable {beta : ℝ} {t : ℕ}

theorem biasCorrection_of_ge (beta : ℝ) (ht : maxExponent ≤ t) :
    biasCorrection beta t = 1 - beta ^ maxExponent := by
  rw [biasCorrection, Scalar.power_real, min_eq_right ht]

/-- A held correction is too small by what the power still loses. -/
theorem heldError_eq (hle : 0 ≤ beta) (hlt : beta < 1) (ht : maxExponent ≤ t) :
    heldError beta t = beta ^ maxExponent - beta ^ t := by
  have hpow : beta ^ t ≤ beta ^ maxExponent := pow_le_pow_of_le_one hle hlt.le ht
  rw [heldError, biasCorrection_of_ge beta ht, abs_of_nonpos (by linarith only [hpow])]
  ring

/-- In the long run the power loses all that it has left. -/
theorem isLUB_heldError (hle : 0 ≤ beta) (hlt : beta < 1) :
    IsLUB (heldError beta '' Set.Ioi maxExponent) (beta ^ maxExponent) := by
  constructor
  · rintro e ⟨t, ht, rfl⟩
    rw [heldError_eq hle hlt (le_of_lt ht)]
    exact sub_le_self _ (pow_nonneg hle t)
  · intro bound hbound
    refine le_of_forall_pos_lt_add fun ε hε => ?_
    obtain ⟨n, hn⟩ := exists_pow_lt_of_lt_one hε hlt
    have hpow : beta ^ (maxExponent + 1 + n) ≤ beta ^ n :=
      pow_le_pow_of_le_one hle hlt.le (Nat.le_add_left ..)
    have hheld := hbound ⟨maxExponent + 1 + n, by rw [Set.mem_Ioi]; omega, rfl⟩
    rw [heldError_eq hle hlt (by omega)] at hheld
    linarith only [hpow, hheld, hn]

/-! ## Powers near one -/

/-- A power of a decay near one, from above. -/
theorem one_sub_pow_mul_le {x : ℝ} (hle : 0 ≤ x) (hlt : x ≤ 1) (n : ℕ) :
    (1 - x) ^ n * (1 + n * x) ≤ 1 :=
  calc (1 - x) ^ n * (1 + n * x) ≤ (1 - x) ^ n * (1 + x) ^ n :=
        mul_le_mul_of_nonneg_left (one_add_mul_le_pow (by linarith only [hle]) n)
          (pow_nonneg (sub_nonneg.2 hlt) n)
    _ = (1 - x ^ 2) ^ n := by rw [← mul_pow]; ring
    _ ≤ 1 := pow_le_one₀ (sub_nonneg.2 (pow_le_one₀ hle hlt)) (sub_le_self 1 (sq_nonneg x))

/-- A power of a decay near one, from below. -/
theorem one_sub_mul_le_pow {x : ℝ} (hlt : x ≤ 1) (n : ℕ) : 1 - n * x ≤ (1 - x) ^ n := by
  have hbernoulli := one_add_mul_le_pow (show -2 ≤ -x by linarith only [hlt]) n
  rwa [mul_neg, ← sub_eq_add_neg, ← sub_eq_add_neg] at hbernoulli

/-- Up to `1 - 2 ^ -25` nothing is left of the power. -/
theorem pow_maxExponent_le (hle : 0 ≤ beta) (hbeta : beta ≤ 1 - (1 / 2) ^ 25) :
    beta ^ maxExponent ≤ roundoff := by
  have hhalf : (1 - (1 / 2 : ℝ) ^ 25) ^ 2 ^ 25 ≤ 1 / 2 := by
    have hpow := one_sub_pow_mul_le (show (0 : ℝ) ≤ (1 / 2) ^ 25 by norm_num) (by norm_num) (2 ^ 25)
    have htwo : 1 + ((2 ^ 25 : ℕ) : ℝ) * (1 / 2) ^ 25 = 2 := by norm_num
    rw [htwo] at hpow
    exact (le_div_iff₀ two_pos).2 hpow
  calc beta ^ maxExponent ≤ beta ^ (2 ^ 25 * 53) :=
        pow_le_pow_of_le_one hle (hbeta.trans (sub_le_self 1 (by positivity))) (by decide)
    _ ≤ (1 - (1 / 2) ^ 25) ^ (2 ^ 25 * 53) := pow_le_pow_left₀ hle hbeta _
    _ = ((1 - (1 / 2) ^ 25) ^ 2 ^ 25) ^ 53 := pow_mul ..
    _ ≤ (1 / 2) ^ 53 := pow_le_pow_left₀ (pow_nonneg (by norm_num) _) hhalf 53

/-- From `1 - 2 ^ -26` on something is. -/
theorem lt_pow_maxExponent (hbeta : 1 - (1 / 2) ^ 26 ≤ beta) (hlt : beta < 1) :
    roundoff < beta ^ maxExponent := by
  have hmost : (7 / 8 : ℝ) ≤ (1 - (1 / 2) ^ 26) ^ 2 ^ 23 := by
    have hpow := one_sub_mul_le_pow (show (1 / 2 : ℝ) ^ 26 ≤ 1 by norm_num) (2 ^ 23)
    have hloss : 1 - ((2 ^ 23 : ℕ) : ℝ) * (1 / 2) ^ 26 = 7 / 8 := by norm_num
    rwa [hloss] at hpow
  have hle : (0 : ℝ) ≤ 1 - (1 / 2) ^ 26 := by norm_num
  calc roundoff < (7 / 8) ^ 256 := by rw [roundoff]; norm_num
    _ ≤ ((1 - (1 / 2) ^ 26) ^ 2 ^ 23) ^ 256 := pow_le_pow_left₀ (by norm_num) hmost 256
    _ = (1 - (1 / 2) ^ 26) ^ (2 ^ 23 * 256) := (pow_mul ..).symm
    _ ≤ beta ^ (2 ^ 23 * 256) := pow_le_pow_left₀ hle hbeta _
    _ ≤ beta ^ maxExponent := pow_le_pow_of_le_one (hle.trans hbeta) hlt.le (by decide)

/-! ## Accepted decays -/

/-- **A held correction is off by the power that is left.** The corrections of an accepted
configuration stay at the value that they have reached when the exponent is held. They are too small
by what the power loses afterwards, which in the long run is all that is left of it. So the error is
negligible for good exactly if the power is: up to a decay of `1 - 2 ^ -25` it is, and from
`1 - 2 ^ -26` on it is not. -/
theorem held_corrections_are_off_by_power {c : AdamConfig ℝ} (hc : c.fault? = none) :
    ∀ beta ∈ [c.beta1, c.beta2],
      (∀ t, maxExponent < t → biasCorrection beta t = 1 - beta ^ maxExponent ∧
        heldError beta t = beta ^ maxExponent - beta ^ t) ∧
      IsLUB (heldError beta '' Set.Ioi maxExponent) (beta ^ maxExponent) ∧
      ((∀ t, maxExponent < t → heldError beta t ≤ roundoff) ↔ beta ^ maxExponent ≤ roundoff) ∧
      (beta ≤ 1 - (1 / 2) ^ 25 → ∀ t, maxExponent < t → heldError beta t ≤ roundoff) ∧
      (1 - (1 / 2) ^ 26 ≤ beta → ∃ t, maxExponent < t ∧ roundoff < heldError beta t) := by
  obtain ⟨-, hbeta1, hbeta2, -⟩ := AdamConfig.fault?_eq_none hc
  intro beta hbeta
  obtain ⟨hle, hlt⟩ : 0 ≤ beta ∧ beta < 1 := by
    rcases List.mem_pair.1 hbeta with rfl | rfl
    · exact hbeta1
    · exact hbeta2
  have hlub := isLUB_heldError hle hlt
  have hiff : (∀ t, maxExponent < t → heldError beta t ≤ roundoff) ↔
      beta ^ maxExponent ≤ roundoff := by
    rw [isLUB_le_iff hlub, mem_upperBounds, Set.forall_mem_image]
    rfl
  refine ⟨fun t ht => ⟨biasCorrection_of_ge beta ht.le, heldError_eq hle hlt ht.le⟩, hlub, hiff,
    fun hsmall => hiff.2 (pow_maxExponent_le hle hsmall), fun hlarge => ?_⟩
  have hnot := mt hiff.1 (lt_pow_maxExponent hlarge hlt).not_ge
  push Not at hnot
  exact hnot

/-- The decays of a configuration that is often used. -/
theorem held_corrections_are_off_by_power_standard :
    (AdamConfig.standard : AdamConfig ℝ).fault? = none ∧
      ∀ t, maxExponent < t → heldError (AdamConfig.standard : AdamConfig ℝ).beta2 t ≤ roundoff := by
  have hfault := Tuning.fault?_standard
  obtain ⟨-, -, -, hsmall, -⟩ := held_corrections_are_off_by_power hfault
    AdamConfig.standard.beta2 (by simp)
  refine ⟨hfault, hsmall ?_⟩
  show (0.999 : ℝ) ≤ 1 - (1 / 2) ^ 25
  norm_num

/-- An accepted decay after four times as many updates as the exponent goes to: the correction
is off by more than an eighth. -/
theorem correction_is_held_too_early :
    ({ AdamConfig.standard with beta1 := 1 - (1 / 2) ^ 32 } : AdamConfig ℝ).fault? = none ∧
      maxExponent < 2 ^ 33 ∧ roundoff < 1 / 8 ∧ 1 / 8 < heldError (1 - (1 / 2) ^ 32) (2 ^ 33) := by
  have hle : (0 : ℝ) ≤ (1 / 2) ^ 32 := by norm_num
  have hpos : (0 : ℝ) < (1 / 2) ^ 32 := by norm_num
  have hone : (1 / 2 : ℝ) ^ 32 ≤ 1 := by norm_num
  have hheld : maxExponent < 2 ^ 33 := by decide
  refine ⟨?_, hheld, by norm_num [roundoff], ?_⟩
  · rw [AdamConfig.fault?_eq_none_iff, AdamConfig.standard]
    norm_num
  · rw [heldError_eq (sub_nonneg.2 hone) (sub_lt_self 1 hpos) hheld.le]
    have hleft := one_sub_mul_le_pow hone maxExponent
    have hgone := one_sub_pow_mul_le hle hone (2 ^ 33)
    have hreached : (maxExponent : ℝ) * (1 / 2) ^ 32 ≤ 1 / 2 := by norm_num [maxExponent]
    have hthree : 1 + ((2 ^ 33 : ℕ) : ℝ) * (1 / 2) ^ 32 = 3 := by norm_num
    rw [hthree] at hgone
    generalize (1 - (1 / 2 : ℝ) ^ 32) ^ maxExponent = left at hleft ⊢
    generalize (1 - (1 / 2 : ℝ) ^ 32) ^ 2 ^ 33 = gone at hgone ⊢
    linarith only [hleft, hgone, hreached]

end GraphTape
