import Mathlib.Analysis.Real.Sqrt
import Mathlib.Analysis.SpecialFunctions.Log.Basic
import GraphTape.Scalar.Basic

/-!
# Real numbers

The real numbers as scalars, for statements about what is computed but for the rounding: about
roots, about averages, about divisors that are not zero.
-/

namespace GraphTape

noncomputable instance : Scalar ℝ where
  exp := Real.exp
  log := Real.log
  sqrt := Real.sqrt
  isFinite _ := true
  decLt := Classical.decRel _
  decLe := Classical.decRel _

namespace Scalar

/-! ## Comparisons -/

section Comparisons

variable {α : Type} [Scalar α] {x y low high : α}

theorem maxNum_eq_right (h : x < y) : maxNum x y = y := if_pos h

theorem maxNum_eq_left (h : ¬x < y) (hx : x ≤ x) : maxNum x y = x := (if_neg h).trans (if_pos hx)

theorem minNum_eq_right (h : y < x) : minNum x y = y := if_pos h

theorem minNum_eq_left (h : ¬y < x) (hx : x ≤ x) : minNum x y = x := (if_neg h).trans (if_pos hx)

theorem clamp_eq_self (hlow : ¬x < low) (hhigh : ¬high < x) : clamp low high x = x := by
  simp only [clamp, if_neg hlow, if_neg hhigh]

end Comparisons

theorem clamp_real {low high : ℝ} (h : low ≤ high) (x : ℝ) :
    clamp low high x = max low (min x high) := by
  by_cases hlow : x < low
  · simp only [clamp, if_pos hlow, if_neg h.not_gt]
    rw [min_eq_left (hlow.le.trans h), max_eq_left hlow.le]
  · by_cases hhigh : high < x
    · simp only [clamp, if_neg hlow, if_pos hhigh]
      rw [min_eq_right hhigh.le, max_eq_right h]
    · rw [clamp_eq_self hlow hhigh, min_eq_left (not_lt.1 hhigh), max_eq_right (not_lt.1 hlow)]

theorem clamp_mem_Icc {low high : ℝ} (h : low ≤ high) (x : ℝ) :
    clamp low high x ∈ Set.Icc low high := by
  rw [clamp_real h]
  exact ⟨le_max_left _ _, max_le h (min_le_right _ _)⟩

theorem maxNum_real (x y : ℝ) : maxNum x y = max x y := by
  by_cases h : x < y
  · rw [maxNum_eq_right h, max_eq_right h.le]
  · rw [maxNum_eq_left h le_rfl, max_eq_left (not_lt.1 h)]

/-! ## Powers and sums -/

/-- Squaring once for each binary digit gives the power. -/
theorem powerFrom_real (r x : ℝ) (n : ℕ) : powerFrom r x n = r * x ^ n := by
  have hlowest : ∀ (r x : ℝ) (n : ℕ),
      (if n % 2 = 1 then r * x else r) = r * x ^ (n % 2) := by
    intro r x n
    obtain hn | hn : n % 2 = 0 ∨ n % 2 = 1 := by omega
    · simp [hn]
    · simp [hn]
  induction r, x, n using powerFrom.induct with
  | case1 r x n hlast =>
    rw [powerFrom, dif_pos hlast, hlowest, show n % 2 = n by omega]
  | case2 r x n low hmore ih =>
    rw [powerFrom, dif_neg hmore]
    calc powerFrom low (x * x) (n / 2)
        = r * x ^ (n % 2) * (x * x) ^ (n / 2) := by rw [ih, ← hlowest]; rfl
      _ = r * x ^ n := by
        rw [← pow_two, ← pow_mul, mul_assoc, ← pow_add, Nat.mod_add_div]

theorem power_real (x : ℝ) (n : ℕ) : power x n = x ^ n := by
  rw [power, powerFrom_real, one_mul]

theorem sum_real (n : ℕ) (f : ℕ → ℝ) : sum n f = ∑ i ∈ Finset.range n, f i := by
  induction n with
  | zero => rfl
  | succ n ih => rw [sum_succ, ih, Finset.sum_range_succ]

end Scalar

end GraphTape
