import Mathlib.Tactic.FieldSimp
import Mathlib.Tactic.Ring
import GraphTape.Proofs.Graph.Gradient
import GraphTape.Proofs.Network.CrossEntropy

/-!
# Derivatives of activations and losses

The derivative of an activation, or of a loss, is a formula of its own next to that of the function.
Here the function is read over dual numbers, with parameters and targets that do not vary, and the
part that the formula gives is the part that comes out: for the straight line and the logistic
curve everywhere, for the hinge away from its bend, and for the cross-entropy of values that are
not moved into the interval of probabilities.

* `Activation.vector_const`: an activation of dual values, along any direction.
* `Loss.value_const`: a loss of dual values, along any direction.
* `derivatives_match_dual_numbers`: both, for a direction that moves one value alone.
-/

namespace GraphTape

/-- A vector of which entry `i` alone moves, at unit speed. -/
def Dual.moving {α : Type} [Scalar α] (a : ℕ → α) (i : ℕ) : ℕ → Dual α :=
  fun j => ⟨a j, if j = i then 1 else 0⟩

/-! ## Activations -/

namespace Activation

/-- An activation of dual values, with parameters that do not vary. -/
def const {α : Type} [Scalar α] : Activation α → Activation (Dual α)
  | linear slope intercept => linear (.const slope) (.const intercept)
  | logistic gain bias offset => logistic (.const gain) (.const bias) (.const offset)
  | relu gain bias leak => relu (.const gain) (.const bias) (.const leak)
  | softmax gain => softmax (.const gain)

/-- The two half-lines of a hinge meet at an angle. -/
def SmoothAt {α : Type} (f : Activation α) (x : α) : Prop :=
  match f with
  | relu _ bias _ => x ≠ bias
  | _ => True

theorem line_dual (slope intercept : ℝ) (x : Dual ℝ) :
    line (.const slope) (.const intercept) x = ⟨line slope intercept x.re, x.eps * slope⟩ := by
  ext
  · rfl
  · simp only [line, Dual.eps_add, Dual.eps_mul, Dual.re_const, Dual.eps_const]
    ring

theorem logisticCurve_dual (gain bias offset : ℝ) (x : Dual ℝ) :
    logisticCurve (.const gain) (.const bias) (.const offset) x =
      { re := logisticCurve gain bias offset x.re
        eps := x.eps * (gain * logisticCurve gain bias offset x.re *
          (1 - logisticCurve gain bias offset x.re)) } := by
  ext
  · rfl
  · simp only [logisticCurve, Dual.eps_div, Dual.re_one, Dual.eps_one, Dual.re_add, Dual.eps_add,
      Dual.eps_exp, Dual.re_exp, Dual.re_mul, Dual.eps_mul, Dual.re_neg, Dual.eps_neg,
      Dual.re_sub, Dual.eps_sub, Dual.re_const, Dual.eps_const]
    have hpos : 0 < Scalar.exp (-gain * (x.re - bias) + offset) := Real.exp_pos _
    generalize Scalar.exp (-gain * (x.re - bias) + offset) = e at hpos ⊢
    have hne : 1 + e ≠ 0 := (add_pos one_pos hpos).ne'
    field_simp
    ring

theorem hinge_dual (gain leak : ℝ) {bias : ℝ} {x : Dual ℝ} (hx : x.re ≠ bias) :
    hinge (.const gain) (.const bias) (.const leak) x =
      { re := hinge gain bias leak x.re
        eps := x.eps * if bias < x.re then gain else leak } := by
  have hle : x - .const bias ≤ x - .const bias := le_refl (x.re - bias)
  rcases lt_or_gt_of_ne hx with hlt | hgt
  · -- below the bend the greater of the shifted value and zero is zero
    have hneg : x.re - bias < 0 := sub_neg.2 hlt
    have hmax : Scalar.maxNum (x - .const bias) 0 = 0 := Scalar.maxNum_eq_right hneg
    have hmin : Scalar.minNum (x - .const bias) 0 = x - .const bias :=
      Scalar.minNum_eq_left (not_lt.2 hneg.le) hle
    rw [hinge, hinge, hmax, hmin, Scalar.maxNum_eq_right hneg,
      Scalar.minNum_eq_left (not_lt.2 hneg.le) le_rfl, if_neg (not_lt.2 hlt.le)]
    ext
    · rfl
    · simp only [Dual.eps_add, Dual.eps_mul, Dual.eps_sub, Dual.re_const, Dual.eps_const,
        Dual.re_zero, Dual.eps_zero]
      ring
  · have hpos : 0 < x.re - bias := sub_pos.2 hgt
    have hmax : Scalar.maxNum (x - .const bias) 0 = x - .const bias :=
      Scalar.maxNum_eq_left (not_lt.2 hpos.le) hle
    have hmin : Scalar.minNum (x - .const bias) 0 = 0 := Scalar.minNum_eq_right hpos
    rw [hinge, hinge, hmax, hmin, Scalar.maxNum_eq_left (not_lt.2 hpos.le) le_rfl,
      Scalar.minNum_eq_right hpos, if_pos hgt]
    ext
    · rfl
    · simp only [Dual.eps_add, Dual.eps_mul, Dual.eps_sub, Dual.re_const, Dual.eps_const,
        Dual.re_zero, Dual.eps_zero]
      ring

/-- An activation that has a derivative takes dual values to dual values by the chain rule. -/
theorem vector_const {f : Activation ℝ} {f' : ℝ → ℝ} (hf : f.derivative? = some f') (n : ℕ)
    (x : ℕ → Dual ℝ) {i : ℕ} (hx : f.SmoothAt (x i).re) :
    f.const.vector n x i =
      ⟨f.vector n (fun j => (x j).re) i, (x i).eps * f' (x i).re⟩ := by
  cases f with
  | linear slope intercept =>
    obtain rfl := Option.some.inj hf
    exact line_dual ..
  | logistic gain bias offset =>
    obtain rfl := Option.some.inj hf
    exact logisticCurve_dual ..
  | relu gain bias leak =>
    obtain rfl := Option.some.inj hf
    exact hinge_dual gain leak hx
  | softmax gain => contradiction

end Activation

/-! ## Losses -/

namespace Loss

variable {n : ℕ} {a : ℕ → Dual ℝ} {y : ℕ → ℝ}

/-- Values from which the loss has a derivative: a cross-entropy is constant where it moves its
values into the interval of probabilities. -/
def SmoothAt (loss : Loss) (n : ℕ) (a : ℕ → ℝ) : Prop :=
  loss = crossEntropy → ∀ i < n, margin < a i ∧ a i < 1 - margin

theorem re_squares (n : ℕ) (a : ℕ → Dual ℝ) (y : ℕ → ℝ) :
    (squares n a fun i => .const (y i)).re = squares n (fun i => (a i).re) y :=
  Dual.re_sum ..

theorem eps_squares (n : ℕ) (a : ℕ → Dual ℝ) (y : ℕ → ℝ) :
    (squares n a fun i => .const (y i)).eps =
      2 * ∑ i ∈ Finset.range n, (a i).eps * ((a i).re - y i) := by
  rw [squares, Dual.eps_sum, Scalar.sum_real, Finset.mul_sum]
  refine Finset.sum_congr rfl fun i _ => ?_
  simp only [Dual.eps_mul, Dual.re_sub, Dual.eps_sub, Dual.re_const, Dual.eps_const]
  ring

/-- The contribution of one value to the cross-entropy, along a direction. -/
theorem logLikelihood_dual {a : Dual ℝ} (hlow : margin < a.re) (hhigh : a.re < 1 - margin) (y : ℝ) :
    logLikelihood a (.const y) =
      { re := logLikelihood a.re y
        eps := -(a.eps * ((probability a.re - y) /
          (probability a.re * (1 - probability a.re)))) } := by
  have hprobability : probability a = a :=
    Scalar.clamp_eq_self (not_lt.2 hlow.le) (not_lt.2 hhigh.le)
  have hreal : probability a.re = a.re :=
    Scalar.clamp_eq_self (not_lt.2 hlow.le) (not_lt.2 hhigh.le)
  have hpos : a.re ≠ 0 := (margin_pos.trans hlow).ne'
  have hlt : 1 - a.re ≠ 0 := by linarith [margin_pos]
  rw [logLikelihood, logLikelihood, hprobability, hreal]
  ext
  · rfl
  · simp only [Dual.eps_add, Dual.eps_mul, Dual.eps_log, Dual.re_sub, Dual.eps_sub, Dual.re_one,
      Dual.eps_one, Dual.re_const, Dual.eps_const]
    field_simp
    ring

theorem value_const_crossEntropy (y : ℕ → ℝ)
    (ha : ∀ i < n, margin < (a i).re ∧ (a i).re < 1 - margin) :
    crossEntropy.value n a (fun i => .const (y i)) = crossEntropy.dual n a y := by
  induction n with
  | zero => rfl
  | succ n ih =>
    obtain ⟨hlow, hhigh⟩ := ha n n.lt_succ_self
    rw [value_crossEntropy_succ, ih fun i hi => ha i (hi.trans n.lt_succ_self),
      logLikelihood_dual hlow hhigh]
    ext
    · exact (value_crossEntropy_succ ..).symm
    · exact (sub_neg_eq_add _ _).trans (Scalar.sum_succ n fun i =>
        (a i).eps * crossEntropy.slope n (fun i => (a i).re) y i).symm

/-- The loss of dual values is a dual value by the derivative of the loss. -/
theorem value_const (loss : Loss) (y : ℕ → ℝ) (ha : loss.SmoothAt n fun i => (a i).re) :
    loss.value n a (fun i => .const (y i)) = loss.dual n a y := by
  cases loss with
  | meanSquare =>
    rcases n.eq_zero_or_pos with rfl | hn
    · rfl
    · have hne : (n : ℝ) ≠ 0 := Nat.cast_ne_zero.2 hn.ne'
      have hmax : max n 1 = n := max_eq_left hn
      have hslope : ∀ i, (a i).eps * meanSquare.slope n (fun i => (a i).re) y i =
          2 / n * ((a i).eps * ((a i).re - y i)) := fun i => by
        rw [slope, hmax]
        exact mul_left_comm ..
      rw [value, if_neg hn.ne']
      ext
      · rw [Dual.re_div, re_squares, dual, value, if_neg hn.ne']
        rfl
      · rw [Dual.eps_div, eps_squares, Dual.re_natCast, Dual.eps_natCast, dual, Scalar.sum_real,
          Finset.sum_congr rfl fun i _ => hslope i, ← Finset.mul_sum, mul_zero, sub_zero]
        exact (mul_div_mul_right _ _ hne).trans (mul_div_right_comm ..)
  | halfSquare =>
    have hhalf : (0.5 : ℝ) * 2 = 1 := by norm_num
    rw [value]
    ext
    · rw [Dual.re_mul, re_squares]
      rfl
    · rw [Dual.eps_mul, eps_squares, dual, Scalar.sum_real]
      calc (0.5 : ℝ) * (2 * ∑ i ∈ Finset.range n, (a i).eps * ((a i).re - y i)) + 0 * _
          = (0.5 : ℝ) * 2 * ∑ i ∈ Finset.range n, (a i).eps * ((a i).re - y i) := by ring
        _ = ∑ i ∈ Finset.range n, (a i).eps * ((a i).re - y i) := by rw [hhalf, one_mul]
  | crossEntropy => exact value_const_crossEntropy y (ha rfl)

end Loss

/-- **Derivatives are what comes out over dual numbers.** Every activation but the softmax has a
derivative. Applied to a vector of which every entry moves at unit speed, it writes its values, each
with the derivative as its speed, unless the entry is at the bend of a hinge. A loss of a vector of
which one entry moves at unit speed has as its speed the entry that is written for the derivative;
for a cross-entropy the values have to be within the interval of probabilities. -/
theorem derivatives_match_dual_numbers :
    (∀ f : Activation ℝ, (∀ gain, f ≠ .softmax gain) → ∃ f', f.derivative? = some f' ∧
      ∀ (b : Buffer (Dual ℝ)) (start n : ℕ) (x : ℕ → ℝ), start + n ≤ b.size →
        ∀ i < n, f.SmoothAt (x i) →
          (f.const.apply b start n fun j => ⟨x j, 1⟩).view start i =
            ⟨f.vector n x i, f' (x i)⟩) ∧
    ∀ (loss : Loss) (n : ℕ) (a y : ℕ → ℝ), loss.SmoothAt n a →
      ∀ i < n, ∀ (b : Buffer ℝ) (start : ℕ), start + n ≤ b.size →
        loss.value n (Dual.moving a i) (fun j => .const (y j)) =
          ⟨loss.value n a y, (loss.writeSlopes b start n a y).view start i⟩ := by
  refine ⟨fun f hf => ?_, fun loss n a y ha i hi b start h => ?_⟩
  · have hsome : ∃ f', f.derivative? = some f' := by
      cases f with
      | linear | logistic | relu => exact ⟨_, rfl⟩
      | softmax gain => exact absurd rfl (hf gain)
    obtain ⟨f', hf'⟩ := hsome
    refine ⟨f', hf', fun b start n x h i hi hx => ?_⟩
    rw [(Activation.apply_fills f.const h).view_eq i hi,
      Activation.vector_const hf' n (fun j => ⟨x j, 1⟩) hx, one_mul]
  · rw [(Loss.writeSlopes_fills loss h).view_eq i hi,
      Loss.value_const (a := Dual.moving a i) loss y ha]
    ext
    · rfl
    · rw [Loss.dual, Scalar.sum_real]
      simp [Dual.moving, hi]

/-- A hinge above its bend, and the cross-entropy of two even chances. -/
theorem derivatives_match_dual_numbers_hinge :
    (∀ gain, (.relu 2 1 0 : Activation ℝ) ≠ .softmax gain) ∧
    (Activation.relu 2 1 0).SmoothAt (3 : ℝ) ∧
    Loss.crossEntropy.SmoothAt 2 (fun _ => (1 / 2 : ℝ)) ∧
    (∃ f', (.relu 2 1 0 : Activation ℝ).derivative? = some f' ∧
      ((Activation.relu (2 : ℝ) 1 0).const.apply #[0] 0 1 fun _ => ⟨3, 1⟩).view 0 0 =
        ⟨(Activation.relu 2 1 0).vector 1 (fun _ => 3) 0, f' 3⟩) ∧
    Loss.crossEntropy.value 2 (Dual.moving (fun _ => (1 / 2 : ℝ)) 1) (fun _ => .const 1) =
      { re := Loss.crossEntropy.value 2 (fun _ => 1 / 2) fun _ => 1
        eps := (Loss.crossEntropy.writeSlopes #[0, 0] 0 2 (fun _ => 1 / 2)
          fun _ => 1).view 0 1 } := by
  have hhinge : ∀ gain, (.relu 2 1 0 : Activation ℝ) ≠ .softmax gain := by simp
  have hbend : (Activation.relu 2 1 0).SmoothAt (3 : ℝ) := by
    show (3 : ℝ) ≠ 1
    norm_num
  have hchances : Loss.crossEntropy.SmoothAt 2 fun _ => (1 / 2 : ℝ) := by
    intro _ i _
    show (1e-12 : ℝ) < 1 / 2 ∧ (1 / 2 : ℝ) < 1 - 1e-12
    norm_num
  obtain ⟨hactivation, hloss⟩ := derivatives_match_dual_numbers
  obtain ⟨f', hf', happly⟩ := hactivation (.relu 2 1 0) hhinge
  exact ⟨hhinge, hbend, hchances,
    ⟨f', hf', happly #[0] 0 1 (fun _ => 3) le_rfl 0 Nat.one_pos hbend⟩,
    hloss .crossEntropy 2 (fun _ => 1 / 2) (fun _ => 1) hchances 1 Nat.one_lt_two #[0, 0] 0 le_rfl⟩

end GraphTape
