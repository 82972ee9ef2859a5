import GraphTape.Buffer.Pointwise

/-!
# Activations

The function a node applies to its pre-activation vector. Three kinds act on every entry on its
own and have a derivative; the softmax looks at the whole vector and has none.

* `Activation.line`, `Activation.logisticCurve`, `Activation.hinge`: the entrywise functions.
* `Activation.derivative?`: the derivative, for the kinds that have one.
* `Activation.apply`: the activation of a vector, written into a buffer.
* `Activation.writeSoftmax`: exponentials shifted by their greatest exponent, then normalized.
-/

namespace GraphTape

/-- The kinds of activation, with their parameters. -/
inductive Activation (α : Type) where
  /-- `slope * x + intercept` -/
  | linear (slope intercept : α)
  /-- `1 / (1 + exp (-gain * (x - bias) + offset))` -/
  | logistic (gain bias offset : α)
  /-- `gain` times the part of `x - bias` above zero plus `leak` times the part below. -/
  | relu (gain bias leak : α)
  /-- Exponentials of `gain * x`, scaled to sum to one. -/
  | softmax (gain : α)
  deriving DecidableEq

namespace Activation

variable {α : Type}

/-- The name of the kind. -/
def name : Activation α → String
  | linear .. => "Linear"
  | logistic .. => "Logistic"
  | relu .. => "ReLU"
  | softmax .. => "SoftMax"

variable [Scalar α]

/-- The activation that changes nothing. -/
def identity : Activation α := linear 1 0

/-- The logistic function of unit gain. -/
def standardLogistic : Activation α := logistic 1 0 0

/-- The rectifier without a leak. -/
def standardRelu : Activation α := relu 1 0 0

instance : Inhabited (Activation α) := ⟨identity⟩

/-- The straight line of the given slope and intercept. -/
def line (slope intercept x : α) : α := slope * x + intercept

/-- The logistic curve of the given gain, centre and offset. -/
def logisticCurve (gain bias offset x : α) : α :=
  1 / (1 + Scalar.exp (-gain * (x - bias) + offset))

/-- Two half-lines that meet at `bias`: slope `gain` above and slope `leak` below. -/
def hinge (gain bias leak x : α) : α :=
  gain * Scalar.maxNum (x - bias) 0 + leak * Scalar.minNum (x - bias) 0

/-- The derivative of the entrywise function. It is taken at the pre-activation. -/
def derivative? : Activation α → Option (α → α)
  | linear slope _ => some fun _ => slope
  | logistic gain bias offset => some fun x =>
    let y := logisticCurve gain bias offset x
    gain * y * (1 - y)
  | relu gain bias leak => some fun x => if bias < x then gain else leak
  | softmax _ => none

/-- Writes the softmax of `x 0, ..., x (n - 1)`. The greatest exponent is subtracted from each,
so no exponential exceeds one. -/
def writeSoftmax (gain : α) (b : Buffer α) (start n : Nat) (x : Nat → α) : Buffer α :=
  let top := Scalar.maxBelow n fun i => gain * x i
  let b := b.write start n fun i => Scalar.exp (gain * x i - top)
  let total := Scalar.sum n (b.view start)
  b.update start n fun _ e => e / total

/-- Writes the activation of `x 0, ..., x (n - 1)` into the stretch at `start`. -/
def apply (f : Activation α) (b : Buffer α) (start n : Nat) (x : Nat → α) : Buffer α :=
  match f with
  | linear slope intercept => b.setMap start n (line slope intercept) x
  | logistic gain bias offset => b.setMap start n (logisticCurve gain bias offset) x
  | relu gain bias leak => b.setMap start n (hinge gain bias leak) x
  | softmax gain => writeSoftmax gain b start n x

/-- Multiplies a vector of errors by the derivative at the pre-activations `z`. -/
def scaleErrors (derivative : α → α) (b : Buffer α) (start n : Nat) (z : Nat → α) : Buffer α :=
  b.mulEach start n fun i => derivative (z i)

end Activation

end GraphTape
