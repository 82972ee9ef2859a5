import GraphTape.Buffer.Pointwise

/-!
# Losses

How far the values `a` of an output node are from their targets `y`, with the derivative in each
value. The loss of a sample is the sum over its output nodes.

* `Loss.value`: the loss of `n` values against `n` targets.
* `Loss.slope`: its derivative in one of the values.
-/

namespace GraphTape

/-- The kinds of loss. -/
inductive Loss where
  /-- The mean of the squared differences. -/
  | meanSquare
  /-- Half of the sum of the squared differences. -/
  | halfSquare
  /-- The binary cross-entropy of values between zero and one. -/
  | crossEntropy
  deriving DecidableEq

namespace Loss

instance : Inhabited Loss := ⟨meanSquare⟩

variable {α : Type} [Scalar α]

/-- How close to zero and to one a probability may come. -/
def margin : α := 1e-12

/-- A value brought into the interval on which the cross-entropy is finite. -/
def probability (a : α) : α := Scalar.clamp margin (1 - margin) a

/-- The sum of the squared differences. -/
def squares (n : Nat) (a y : Nat → α) : α :=
  Scalar.sum n fun i => (a i - y i) * (a i - y i)

/-- The contribution of one value to the cross-entropy, with its sign reversed. -/
def logLikelihood (a y : α) : α :=
  y * Scalar.log (probability a) + (1 - y) * Scalar.log (1 - probability a)

/-- The loss of `n` values against their targets. -/
def value (loss : Loss) (n : Nat) (a y : Nat → α) : α :=
  match loss with
  | meanSquare => if n = 0 then 0 else squares n a y / (n : α)
  | halfSquare => 0.5 * squares n a y
  | crossEntropy => n.fold (fun i _ total => total - logLikelihood (a i) (y i)) 0

/-- The derivative of the loss in value `i`. -/
def slope (loss : Loss) (n : Nat) (a y : Nat → α) (i : Nat) : α :=
  match loss with
  | meanSquare => ((2 : Nat) : α) / ((max n 1 : Nat) : α) * (a i - y i)
  | halfSquare => a i - y i
  | crossEntropy =>
    let p := probability (a i)
    (p - y i) / (p * (1 - p))

/-- Writes the derivatives in all values. -/
def writeSlopes (loss : Loss) (b : Buffer α) (start n : Nat) (a y : Nat → α) : Buffer α :=
  b.write start n (loss.slope n a y)

end Loss

end GraphTape
