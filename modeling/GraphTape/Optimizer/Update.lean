import GraphTape.Memory.Store
import GraphTape.Optimizer.Config

/-!
# Updates

The in-place update of parameters from their gradients. A rule walks over slots; gradients are
indexed by a slot's flat offset. Adam keeps two planes of state, each as long as the gradients:
the first moments and, after them, the second moments.

* `Rule.step`: one update of the parameters in a list of slots.
* `Optimizer`: a rule together with its state.
-/

namespace GraphTape

/-- An update rule with the number of updates Adam has made. -/
inductive Rule (α : Type) where
  | sgd (lr : α)
  | adam (config : AdamConfig α) (t : Nat)

/-- The parameters and the optimizer state during an update. -/
structure Update (α : Type) where
  store : Store α
  host : Host α
  aux : Buffer α

/-- The greatest exponent that a bias correction uses. -/
def maxExponent : Nat := 2147483647

variable {α : Type} [Scalar α]

/-- `1 - beta ^ t`, with the exponent held at `maxExponent`. -/
def biasCorrection (beta : α) (t : Nat) : α := 1 - Scalar.power beta (min t maxExponent)

namespace AdamConfig

/-- The first moment after the gradient `g`. -/
def firstMoment (c : AdamConfig α) (g m : α) : α := c.beta1 * m + (1 - c.beta1) * g

/-- The second moment after the gradient `g`. -/
def secondMoment (c : AdamConfig α) (g v : α) : α := c.beta2 * v + (1 - c.beta2) * g * g

/-- The parameter after update `t`, from its moments. -/
def moved (c : AdamConfig α) (t : Nat) (m v w : α) : α :=
  let mean := m / biasCorrection c.beta1 t
  let square := v / biasCorrection c.beta2 t
  w - c.lr * mean / (Scalar.sqrt square + c.eps)

/-- Update `t` of the parameters in one slot. -/
def updateSlot (c : AdamConfig α) (t : Nat) (grads : Buffer α) (u : Update α) (slot : Slot) :
    Update α :=
  let g := grads.view slot.flat
  let second := grads.size + slot.flat
  let aux := u.aux.update slot.flat slot.len fun i m => c.firstMoment (g i) m
  let aux := aux.update second slot.len fun i v => c.secondMoment (g i) v
  let m := aux.view slot.flat
  let v := aux.view second
  let (store, host) := u.store.update u.host slot fun i w => c.moved t (m i) (v i) w
  { store, host, aux }

end AdamConfig

/-- The update of the parameters in one slot by gradient descent. -/
def descendSlot (lr : α) (grads : Buffer α) (u : Update α) (slot : Slot) : Update α :=
  let g := grads.view slot.flat
  let (store, host) := u.store.update u.host slot fun i w => w - lr * g i
  { u with store, host }

namespace Rule

/-- A rule that has made no update. -/
def ofConfig : OptimizerConfig α → Rule α
  | .sgd lr => sgd lr
  | .adam config => adam config 0

/-- The name of the rule. -/
def name : Rule α → String
  | sgd _ => "SGD"
  | adam .. => "Adam"

/-- How many elements of state the rule keeps for each parameter element. -/
def auxPerParam : Rule α → Nat
  | sgd _ => 0
  | adam .. => 2

/-- The number of updates Adam has made. -/
def count? : Rule α → Option Nat
  | sgd _ => none
  | adam _ t => some t

/-- Updates the parameters in all slots, one after the other. -/
def step (r : Rule α) (slots : List Slot) (grads : Buffer α) (u : Update α) :
    Rule α × Update α :=
  match r with
  | sgd lr => (r, slots.foldl (descendSlot lr grads) u)
  | adam config t =>
    (adam config (t + 1), slots.foldl (config.updateSlot (t + 1) grads) u)

end Rule

/-- An update rule together with its state. -/
structure Optimizer (α : Type) where
  rule : Rule α
  aux : Buffer α
  /-- The number of parameter elements. -/
  paramLen : Nat
  /-- The number of updates made. -/
  steps : Nat

namespace Optimizer

/-- An optimizer with zeroed state, or the first hyperparameter out of range. -/
def build (config : OptimizerConfig α) (paramLen : Nat) : Except (Error α) (Optimizer α) :=
  match config.fault? with
  | some fault => .error fault
  | none =>
    .ok
      { rule := .ofConfig config
        aux := .zeros (config.auxPerParam * paramLen)
        paramLen
        steps := 0 }

/-- One update of the parameters in a list of slots. -/
def step (o : Optimizer α) (slots : List Slot) (grads : Buffer α) (store : Store α)
    (host : Host α) : Optimizer α × Store α × Host α :=
  let (rule, u) := o.rule.step slots grads { store, host, aux := o.aux }
  ({ o with rule, aux := u.aux, steps := o.steps + 1 }, u.store, u.host)

end Optimizer

end GraphTape
