import GraphTape.Error.Basic
import GraphTape.Scalar.Basic

/-!
# Optimizer settings

The update rules with their hyperparameters, and the ranges these must lie in.
-/

namespace GraphTape

/-- The hyperparameters of Adam. -/
structure AdamConfig (α : Type) where
  /-- The learning rate. -/
  lr : α
  /-- The decay of the first moment. -/
  beta1 : α
  /-- The decay of the second moment. -/
  beta2 : α
  /-- Keeps the divisor away from zero. -/
  eps : α
  deriving DecidableEq

/-- An update rule with its hyperparameters. -/
inductive OptimizerConfig (α : Type) where
  /-- Plain gradient descent. -/
  | sgd (lr : α)
  /-- Adaptive moment estimation. -/
  | adam (config : AdamConfig α)
  deriving DecidableEq

variable {α : Type}

/-- The report of a value that is not finite and positive. -/
def positiveFault? [Scalar α] (name : String) (value : α) : Option (Error α) :=
  if Scalar.isFinite value && !decide (value ≤ 0) then none
  else some (.invalidHyperparameter name value "must be finite and positive")

/-- The report of a decay that is not at least zero and less than one. -/
def decayFault? [Scalar α] (name : String) (value : α) : Option (Error α) :=
  if 0 ≤ value ∧ value < 1 then none
  else some (.invalidHyperparameter name value "must be in [0, 1)")

namespace AdamConfig

variable [Scalar α]

/-- The usual hyperparameters. -/
def standard : AdamConfig α := { lr := 1e-3, beta1 := 0.9, beta2 := 0.999, eps := 1e-8 }

/-- The first hyperparameter out of range. -/
def fault? (c : AdamConfig α) : Option (Error α) :=
  (positiveFault? "lr" c.lr).or <|
    (decayFault? "beta1" c.beta1).or <|
      (decayFault? "beta2" c.beta2).or (positiveFault? "eps" c.eps)

end AdamConfig

namespace OptimizerConfig

/-- The name of the rule. -/
def name : OptimizerConfig α → String
  | sgd _ => "SGD"
  | adam _ => "Adam"

/-- The learning rate. -/
def lr : OptimizerConfig α → α
  | sgd lr => lr
  | adam config => config.lr

/-- How many elements of state the rule keeps for each parameter element. -/
def auxPerParam : OptimizerConfig α → Nat
  | sgd _ => 0
  | adam _ => 2

variable [Scalar α]

/-- Gradient descent with a learning rate of one hundredth. -/
def standard : OptimizerConfig α := sgd 0.01

instance : Inhabited (OptimizerConfig α) := ⟨standard⟩

/-- Adam with the usual hyperparameters and the given learning rate. -/
def adamWithRate (lr : α) : OptimizerConfig α := adam { AdamConfig.standard with lr }

/-- The first hyperparameter out of range. -/
def fault? : OptimizerConfig α → Option (Error α)
  | sgd lr => positiveFault? "lr" lr
  | adam config => config.fault?

end OptimizerConfig

end GraphTape
