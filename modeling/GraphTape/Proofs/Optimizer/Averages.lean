import Mathlib.Algebra.BigOperators.Field
import Mathlib.Algebra.Order.BigOperators.Ring.Finset
import Mathlib.Algebra.Ring.GeomSum
import Mathlib.Data.Finset.Lattice.Fold
import GraphTape.Proofs.Optimizer.Runs
import GraphTape.Proofs.Scalar.Real

/-!
# What Adam averages

The moments of an element start at zero and forget a share of themselves with each gradient. The
shares of the gradients seen so far sum to `1 - beta ^ t` after `t` of them, which is what a
correction divides by: a corrected moment is an average of gradients, or of their squares, with
weights that sum to one. All of this is about real numbers.

* `share`: the weight of a gradient in a corrected moment.
* `Averages`: an average with these weights.
* `Corrected`: what holds of one update of an element, from which it is clear that nothing is
  divided by zero.
* `Moments`: the moments of an element, and `Moments.corrected`: the next update is corrected.
* `Tuning.adam_averages_gradients`: every update of a run is corrected.
-/

namespace GraphTape

open Finset

/-! ## Averages -/

/-- The sum of the first `t` values, each weighed by `1 - beta` and by the factor `beta` for every
value after it. -/
def decayed (beta : ℝ) (x : ℕ → ℝ) (t : ℕ) : ℝ :=
  ∑ s ∈ range t, (1 - beta) * beta ^ (t - 1 - s) * x s

/-- The weight of `x s` in the average of `x 0, ..., x t`. -/
noncomputable def share (beta : ℝ) (t s : ℕ) : ℝ :=
  (1 - beta) * beta ^ (t - s) / (1 - beta ^ (t + 1))

/-- The average of `x 0, ..., x t`, in which a value weighs less by the factor `beta` than the one
after it. -/
structure Averages (beta : ℝ) (x : ℕ → ℝ) (t : ℕ) (mean : ℝ) : Prop where
  share_nonneg : ∀ s ≤ t, 0 ≤ share beta t s
  sum_share : ∑ s ∈ range (t + 1), share beta t s = 1
  eq_sum : mean = ∑ s ∈ range (t + 1), share beta t s * x s
  least_le : (range (t + 1)).inf' nonempty_range_add_one x ≤ mean
  le_greatest : mean ≤ (range (t + 1)).sup' nonempty_range_add_one x

variable {beta : ℝ} {x : ℕ → ℝ} {t : ℕ} {mean : ℝ}

theorem decayed_succ (beta : ℝ) (x : ℕ → ℝ) (t : ℕ) :
    decayed beta x (t + 1) = beta * decayed beta x t + (1 - beta) * x t := by
  rw [decayed, decayed, sum_range_succ, mul_sum, Nat.add_sub_cancel, Nat.sub_self, pow_zero,
    mul_one]
  congr 1
  refine sum_congr rfl fun s hs => ?_
  have hs := mem_range.1 hs
  rw [show t - s = t - 1 - s + 1 by omega, pow_succ]
  ring

theorem decayed_nonneg (hle : 0 ≤ beta) (hlt : beta < 1) (hx : ∀ s, 0 ≤ x s) (t : ℕ) :
    0 ≤ decayed beta x t :=
  sum_nonneg fun s _ =>
    mul_nonneg (mul_nonneg (sub_nonneg.2 hlt.le) (pow_nonneg hle _)) (hx s)

/-- The shares sum to what a correction divides by. -/
theorem decayed_one (beta : ℝ) (t : ℕ) : decayed beta (fun _ => 1) t = 1 - beta ^ t := by
  rw [decayed, ← mul_neg_geom_sum, mul_sum, ← sum_range_reflect fun s => (1 - beta) * beta ^ s]
  simp only [mul_one]

theorem decayed_div (beta : ℝ) (x : ℕ → ℝ) (t : ℕ) :
    decayed beta x (t + 1) / (1 - beta ^ (t + 1)) = ∑ s ∈ range (t + 1), share beta t s * x s := by
  rw [decayed, sum_div, Nat.add_sub_cancel]
  exact sum_congr rfl fun s _ => mul_div_right_comm ..

theorem one_sub_pow_pos (hle : 0 ≤ beta) (hlt : beta < 1) {t : ℕ} (ht : 0 < t) :
    0 < 1 - beta ^ t :=
  sub_pos.2 (pow_lt_one₀ hle hlt ht.ne')

/-- What has decayed, divided by the sum of its shares, is an average. -/
theorem averages_decayed (hle : 0 ≤ beta) (hlt : beta < 1) (x : ℕ → ℝ) (t : ℕ) :
    Averages beta x t (decayed beta x (t + 1) / (1 - beta ^ (t + 1))) := by
  have hpos := one_sub_pow_pos hle hlt t.succ_pos
  have hnonneg : ∀ s, 0 ≤ share beta t s := fun s =>
    div_nonneg (mul_nonneg (sub_nonneg.2 hlt.le) (pow_nonneg hle _)) hpos.le
  have hsum : ∑ s ∈ range (t + 1), share beta t s = 1 := by
    have hone := decayed_div beta (fun _ => 1) t
    rw [decayed_one, div_self hpos.ne'] at hone
    simpa only [mul_one] using hone.symm
  -- a bound of the values, weighed by the shares, is the bound itself
  have hbound : ∀ b, ∑ s ∈ range (t + 1), share beta t s * b = b := fun b => by
    rw [← sum_mul, hsum, one_mul]
  refine ⟨fun s _ => hnonneg s, hsum, decayed_div beta x t, ?_, ?_⟩
  · rw [decayed_div, ← hbound ((range (t + 1)).inf' nonempty_range_add_one x)]
    exact sum_le_sum fun s hs => mul_le_mul_of_nonneg_left (inf'_le x hs) (hnonneg s)
  · rw [decayed_div, ← hbound ((range (t + 1)).sup' nonempty_range_add_one x)]
    exact sum_le_sum fun s hs => mul_le_mul_of_nonneg_left (le_sup' x hs) (hnonneg s)

/-- The average of equal values. -/
theorem Averages.eq_of_constant (h : Averages beta x t mean) {a : ℝ} (hx : ∀ s ≤ t, x s = a) :
    mean = a := by
  rw [h.eq_sum, ← one_mul a, ← h.sum_share, sum_mul]
  exact sum_congr rfl fun s hs => by rw [hx s (Nat.lt_succ_iff.1 (mem_range.1 hs))]

/-! ## Corrections -/

/-- The hyperparameters that are accepted. -/
theorem AdamConfig.fault?_eq_none {c : AdamConfig ℝ} (hc : c.fault? = none) :
    0 < c.lr ∧ (0 ≤ c.beta1 ∧ c.beta1 < 1) ∧ (0 ≤ c.beta2 ∧ c.beta2 < 1) ∧ 0 < c.eps := by
  have hpositive : ∀ {name : String} {value : ℝ}, positiveFault? name value = none → 0 < value := by
    intro name value h
    rw [positiveFault?] at h
    split at h
    · rename_i hvalue
      simpa [Scalar.isFinite] using hvalue
    · contradiction
  have hdecay : ∀ {name : String} {value : ℝ}, decayFault? name value = none →
      0 ≤ value ∧ value < 1 := by
    intro name value h
    rw [decayFault?] at h
    split at h
    · assumption
    · contradiction
  rw [fault?, Option.or_eq_none_iff, Option.or_eq_none_iff, Option.or_eq_none_iff] at hc
  exact ⟨hpositive hc.1, hdecay hc.2.1, hdecay hc.2.2.1, hpositive hc.2.2.2⟩

theorem AdamConfig.fault?_eq_none_iff {c : AdamConfig ℝ} : c.fault? = none ↔
    0 < c.lr ∧ (0 ≤ c.beta1 ∧ c.beta1 < 1) ∧ (0 ≤ c.beta2 ∧ c.beta2 < 1) ∧ 0 < c.eps := by
  refine ⟨fault?_eq_none, fun ⟨hlr, hbeta1, hbeta2, heps⟩ => ?_⟩
  have hpositive : ∀ (name : String) {value : ℝ}, 0 < value → positiveFault? name value = none :=
    fun name value hvalue => if_pos (by simpa [Scalar.isFinite] using hvalue)
  have hdecay : ∀ (name : String) {value : ℝ}, 0 ≤ value ∧ value < 1 →
      decayFault? name value = none := fun name value hvalue => if_pos hvalue
  rw [fault?, hpositive _ hlr, hdecay _ hbeta1, hdecay _ hbeta2, hpositive _ heps]
  rfl

theorem biasCorrection_eq (beta : ℝ) (ht : t ≤ maxExponent) :
    biasCorrection beta t = 1 - beta ^ t := by
  rw [biasCorrection, Scalar.power_real, min_eq_left ht]

theorem biasCorrection_pos (hle : 0 ≤ beta) (hlt : beta < 1) (ht : 0 < t) :
    0 < biasCorrection beta t := by
  rw [biasCorrection, Scalar.power_real]
  exact one_sub_pow_pos hle hlt (lt_min ht (by decide))

/-- An element after the update that comes after `t` others, all of them with a gradient: no divisor
is zero and no root is of a negative number, and as long as the exponent of the corrections is not
held, the corrected moments are averages of the gradients and of their squares. -/
structure Corrected (c : AdamConfig ℝ) (g : ℕ → ℝ) (t : ℕ) (before after : Element ℝ) :
    Prop where
  first_pos : 0 < biasCorrection c.beta1 (t + 1)
  second_pos : 0 < biasCorrection c.beta2 (t + 1)
  second_nonneg : 0 ≤ after.second
  square_nonneg : 0 ≤ after.second / biasCorrection c.beta2 (t + 1)
  eps_pos : 0 < c.eps
  eps_le : c.eps ≤ √(after.second / biasCorrection c.beta2 (t + 1)) + c.eps
  value_eq : after.value = before.value - c.lr * (after.first / biasCorrection c.beta1 (t + 1)) /
    (√(after.second / biasCorrection c.beta2 (t + 1)) + c.eps)
  mean : t + 1 ≤ maxExponent →
    Averages c.beta1 g t (after.first / biasCorrection c.beta1 (t + 1))
  square : t + 1 ≤ maxExponent →
    Averages c.beta2 (fun s => g s ^ 2) t (after.second / biasCorrection c.beta2 (t + 1))
  value_of_constant : t + 1 ≤ maxExponent → ∀ a, (∀ s ≤ t, g s = a) →
    after.value = before.value - c.lr * a / (|a| + c.eps)

/-- The moments of an element after `t` updates. -/
structure Moments (c : AdamConfig ℝ) (g : ℕ → ℝ) (t : ℕ) (e : Element ℝ) : Prop where
  first_eq : e.first = decayed c.beta1 g t
  second_eq : e.second = decayed c.beta2 (fun s => g s ^ 2) t

namespace Moments

variable {c : AdamConfig ℝ} {g : ℕ → ℝ} {e : Element ℝ}

theorem zero (hfirst : e.first = 0) (hsecond : e.second = 0) : Moments c g 0 e :=
  ⟨hfirst.trans (sum_range_zero _).symm, hsecond.trans (sum_range_zero _).symm⟩

theorem advance (h : Moments c g t e) :
    Moments c g (t + 1) ((Rule.adam c t).advance (g t) e) := by
  constructor
  · rw [decayed_succ, ← h.first_eq]
    rfl
  · rw [decayed_succ, ← h.second_eq, pow_two, ← mul_assoc]
    rfl

/-- The next update is corrected. -/
theorem corrected (h : Moments c g t e) (hc : c.fault? = none) :
    Corrected c g t e ((Rule.adam c t).advance (g t) e) := by
  obtain ⟨-, ⟨hle1, hlt1⟩, ⟨hle2, hlt2⟩, heps⟩ := AdamConfig.fault?_eq_none hc
  obtain ⟨hfirst, hsecond⟩ := h.advance
  have hvalue : ((Rule.adam c t).advance (g t) e).value = e.value -
      c.lr * (((Rule.adam c t).advance (g t) e).first / biasCorrection c.beta1 (t + 1)) /
        (√(((Rule.adam c t).advance (g t) e).second / biasCorrection c.beta2 (t + 1)) + c.eps) :=
    rfl
  generalize (Rule.adam c t).advance (g t) e = e' at hfirst hsecond hvalue ⊢
  have hpos1 := biasCorrection_pos hle1 hlt1 t.succ_pos
  have hpos2 := biasCorrection_pos hle2 hlt2 t.succ_pos
  have hnonneg : 0 ≤ e'.second := hsecond ▸ decayed_nonneg hle2 hlt2 (fun s => sq_nonneg (g s)) _
  have hmean : t + 1 ≤ maxExponent →
      Averages c.beta1 g t (e'.first / biasCorrection c.beta1 (t + 1)) := fun ht => by
    rw [hfirst, biasCorrection_eq c.beta1 ht]
    exact averages_decayed hle1 hlt1 g t
  have hsquare : t + 1 ≤ maxExponent →
      Averages c.beta2 (fun s => g s ^ 2) t (e'.second / biasCorrection c.beta2 (t + 1)) :=
    fun ht => by
      rw [hsecond, biasCorrection_eq c.beta2 ht]
      exact averages_decayed hle2 hlt2 _ t
  refine ⟨hpos1, hpos2, hnonneg, div_nonneg hnonneg hpos2.le, heps,
    le_add_of_nonneg_left (Real.sqrt_nonneg _), hvalue, hmean, hsquare, fun ht a ha => ?_⟩
  rw [hvalue, (hmean ht).eq_of_constant ha,
    (hsquare ht).eq_of_constant fun s hs => congrArg (· ^ 2) (ha s hs), Real.sqrt_sq_eq_abs]

end Moments

namespace Tuning

variable {n size : ℕ} {slots : Fin n → Slot} {x : Tuning ℝ} {c : AdamConfig ℝ}
  {calls : ℕ → Call ℝ n size} {j : Fin n} {i : ℕ} {g : ℕ → ℝ}

theorem rule_after (hr : x.optimizer.rule = .adam c 0) (t : ℕ) :
    (x.after slots calls t).optimizer.rule = .adam c t := by
  induction t with
  | zero => exact hr
  | succ t ih => rw [after_succ, rule_call, ih, Rule.next]

namespace Ready

/-- An element that has a gradient in every update is advanced by every update. -/
theorem element_after_succ (hx : x.Ready size slots) (hr : x.optimizer.rule = .adam c 0)
    (hi : i < (slots j).len) (hg : ∀ s, (calls s).gradient? slots j i = some (g s)) (t : ℕ) :
    (x.after slots calls (t + 1)).update.element size (slots j) i =
      (Rule.adam c t).advance (g t) ((x.after slots calls t).update.element size (slots j) i) := by
  have hready : (x.after slots calls t).Ready size slots := hx.run _
  rw [after_succ, hready.element_call _ j hi, hg, rule_after hr]
  rfl

theorem moments_after (hx : x.Ready size slots) (hr : x.optimizer.rule = .adam c 0)
    (hstart : Moments c g 0 (x.update.element size (slots j) i)) (hi : i < (slots j).len)
    (hg : ∀ s, (calls s).gradient? slots j i = some (g s)) (t : ℕ) :
    Moments c g t ((x.after slots calls t).update.element size (slots j) i) := by
  induction t with
  | zero => exact hstart
  | succ t ih =>
    rw [hx.element_after_succ hr hi hg]
    exact ih.advance

end Ready

/-- **Adam divides averages by divisors that are not zero.** An accepted configuration is built into
an optimizer with zeroed moments, and whatever gradients an element has in the updates of a run
without end, every one of them is corrected. -/
theorem adam_averages_gradients (hc : c.fault? = none) (size : ℕ) :
    ∃ o, Optimizer.build (.adam c) size = .ok o ∧
      ∀ {n : ℕ} {slots : Fin n → Slot} {x : Tuning ℝ}, x.optimizer = o → x.Ready size slots →
        ∀ (calls : ℕ → Call ℝ n size) (j : Fin n), ∀ i < (slots j).len, ∀ g : ℕ → ℝ,
          (∀ s, (calls s).gradient? slots j i = some (g s)) → ∀ t, Corrected c g t
            ((x.after slots calls t).update.element size (slots j) i)
            ((x.after slots calls (t + 1)).update.element size (slots j) i) := by
  have hbuild : Optimizer.build (.adam c) size =
      .ok ⟨.adam c 0, .zeros (2 * size), size, 0⟩ := by
    rw [Optimizer.build, OptimizerConfig.fault?, hc]
    rfl
  refine ⟨_, hbuild, fun {n slots x} ho hx calls j i hi g hg t => ?_⟩
  have hr : x.optimizer.rule = .adam c 0 := by rw [ho]
  have hzero : ∀ k, x.update.aux.getD k 0 = 0 := fun k => by
    rw [update, ho]
    exact Buffer.getD_zeros _ k
  rw [hx.element_after_succ hr hi hg]
  exact (hx.moments_after hr (.zero (hzero _) (hzero _)) hi hg t).corrected hc

/-! ## Two parameters -/

theorem fault?_standard : (AdamConfig.standard : AdamConfig ℝ).fault? = none := by
  rw [AdamConfig.fault?_eq_none_iff, AdamConfig.standard]
  norm_num

/-- Updates in which the gradients of the second parameter grow. -/
def growingCalls (s : ℕ) : Call ℝ 2 3 where
  listed := List.finRange 2
  grads := #[0, 0, s]
  nodup := List.nodup_finRange 2
  size_eq := rfl

theorem adam_averages_gradients_pair : (AdamConfig.standard : AdamConfig ℝ).fault? = none ∧
    pair.Ready (α := ℝ) 3 pairSlots ∧ ∀ t, Corrected .standard (fun s => s) t
      ((pair.after pairSlots growingCalls t).update.element 3 (pairSlots 1) 0)
      ((pair.after pairSlots growingCalls (t + 1)).update.element 3 (pairSlots 1) 0) := by
  obtain ⟨o, hbuild, hrun⟩ := adam_averages_gradients fault?_standard 3
  have ho : o = pair.optimizer := Optimizer.eq_of_build hbuild
  exact ⟨fault?_standard, ready_pair,
    hrun ho.symm ready_pair growingCalls 1 0 Nat.one_pos _ fun s => rfl⟩

end Tuning

end GraphTape
