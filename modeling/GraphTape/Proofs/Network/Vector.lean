import GraphTape.Network.Activation
import GraphTape.Network.Loss
import GraphTape.Proofs.Buffer.Fill

/-!
# Activations and losses as functions of vectors

What an activation writes depends on the pre-activation vector alone: not on the buffer it is
written to, nor on the place in it. `Activation.vector` is that function, and `apply_fills` says
that the activation of a buffer stretch computes it. The losses are functions of their vectors to
begin with; the lemmas here say how far into the vectors they look.
-/

namespace GraphTape

variable {α : Type} [Scalar α]

/-- The greatest of the first entries depends on these entries only. -/
theorem Scalar.maxBelow_congr {n : Nat} {f g : Nat → α} (hn : 0 < n) (h : ∀ i < n, f i = g i) :
    Scalar.maxBelow n f = Scalar.maxBelow n g := by
  have run : ∀ m ≤ n, ∀ x : α, m.fold (fun i _ y => Scalar.maxNum y (f i)) x =
      m.fold (fun i _ y => Scalar.maxNum y (g i)) x := by
    intro m hm x
    induction m with
    | zero => rfl
    | succ m ih => rw [Nat.fold_succ, Nat.fold_succ, ih (by omega), h m (by omega)]
  rw [maxBelow, maxBelow, h 0 hn]
  exact run n (Nat.le_refl n) _

namespace Activation

variable {b : Buffer α} {start n : Nat} {x y : Nat → α}

/-- The activation of the vector `x 0, ..., x (n - 1)`. -/
def vector (f : Activation α) (n : Nat) (x : Nat → α) : Nat → α :=
  match f with
  | linear slope intercept => fun i => line slope intercept (x i)
  | logistic gain bias offset => fun i => logisticCurve gain bias offset (x i)
  | relu gain bias leak => fun i => hinge gain bias leak (x i)
  | softmax gain =>
    let top := Scalar.maxBelow n fun i => gain * x i
    fun i => Scalar.exp (gain * x i - top) / Scalar.sum n fun j => Scalar.exp (gain * x j - top)

theorem vector_congr (f : Activation α) (h : ∀ j < n, x j = y j) {i : Nat} (hi : i < n) :
    f.vector n x i = f.vector n y i := by
  cases f with
  | linear | logistic | relu => simp only [vector, h i hi]
  | softmax gain =>
    have hmax : Scalar.maxBelow n (fun i => gain * x i) = Scalar.maxBelow n fun i => gain * y i :=
      Scalar.maxBelow_congr (by omega) fun j hj => by rw [h j hj]
    simp only [vector, hmax, h i hi]
    congr 1
    exact Scalar.sum_congr fun j hj => by rw [h j hj]

/-- The softmax is written in two passes, and the second one reads what the first one left. -/
theorem writeSoftmax_fills (gain : α) (h : start + n ≤ b.size) :
    b.Fills start n ((softmax gain).vector n x) (writeSoftmax gain b start n x) := by
  have hexp := Buffer.write_fills h fun i =>
    Scalar.exp (gain * x i - Scalar.maxBelow n fun i => gain * x i)
  refine hexp.trans ((Buffer.update_fills (hexp.size_eq ▸ h) _).congr fun i hi => ?_)
  rw [hexp.view_eq i hi, Scalar.sum_congr hexp.view_eq]
  rfl

/-- An activation computes its vector, wherever it is written. -/
theorem apply_fills (f : Activation α) (h : start + n ≤ b.size) :
    b.Fills start n (f.vector n x) (f.apply b start n x) := by
  cases f with
  | linear | logistic | relu => exact Buffer.write_fills h _
  | softmax gain => exact writeSoftmax_fills gain h

theorem scaleErrors_fills (derivative : α → α) (h : start + n ≤ b.size) (z : Nat → α) :
    b.Fills start n (fun i => b.view start i * derivative (z i))
      (scaleErrors derivative b start n z) :=
  Buffer.mulEach_fills h _

end Activation

namespace Loss

variable {b : Buffer α} {start n : Nat} {a a' y y' : Nat → α}

theorem value_crossEntropy_succ (n : Nat) (a y : Nat → α) :
    crossEntropy.value (n + 1) a y =
      crossEntropy.value n a y - logLikelihood (a n) (y n) := by
  rw [value, value, Nat.fold_succ]

theorem value_congr (loss : Loss) (ha : ∀ i < n, a i = a' i) (hy : ∀ i < n, y i = y' i) :
    loss.value n a y = loss.value n a' y' := by
  have hsquares : squares n a y = squares n a' y' :=
    Scalar.sum_congr fun i hi => by rw [ha i hi, hy i hi]
  cases loss with
  | meanSquare | halfSquare => simp only [value, hsquares]
  | crossEntropy =>
    clear hsquares
    induction n with
    | zero => rfl
    | succ n ih =>
      rw [value_crossEntropy_succ, value_crossEntropy_succ,
        ih (fun i hi => ha i (by omega)) (fun i hi => hy i (by omega)), ha n (by omega),
        hy n (by omega)]

theorem slope_congr (loss : Loss) {i : Nat} (ha : a i = a' i) (hy : y i = y' i) :
    loss.slope n a y i = loss.slope n a' y' i := by
  cases loss <;> simp only [slope, ha, hy]

theorem writeSlopes_fills (loss : Loss) (h : start + n ≤ b.size) :
    b.Fills start n (loss.slope n a y) (loss.writeSlopes b start n a y) :=
  Buffer.write_fills h _

end Loss

end GraphTape
