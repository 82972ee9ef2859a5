import GraphTape.Memory.Layout
import GraphTape.Network.Loss

/-!
# Instructions

A compiled graph runs as a tape: a list of instructions whose operands are offsets into flat
regions. Five banks hold node vectors. `value`, `z` and `error` have a stretch for every node, at
the same offset in each; `pre` and `temp` are as wide as the widest node and shared by all.
-/

namespace GraphTape

/-- Where a pre-activation vector is computed. -/
inductive PreSlot where
  /-- In the bank `pre`, shared by all nodes. -/
  | scratch
  /-- In the bank `z`, where it stays for the reverse sweep. -/
  | retained (offset : Nat)
  deriving DecidableEq, Inhabited

/-- One operation on the regions of a run. -/
inductive Instr (α : Type) where
  /-- The pre-activation becomes the input vector at `src`. -/
  | loadInput (src : Nat) (pre : PreSlot) (width : Nat)
  /-- The pre-activation becomes, or grows by, the value at `src` times a weight. -/
  | matMul (src : Nat) (weight : Slot) (rows cols : Nat) (pre : PreSlot) (accumulate : Bool)
  /-- The pre-activation grows by a bias. -/
  | addBias (bias : Slot) (pre : PreSlot) (width : Nat)
  /-- The value at `dst` becomes the activation of the pre-activation. -/
  | activate (f : Activation α) (pre : PreSlot) (dst width : Nat)
  /-- The loss grows by the loss of a value against its target; the error becomes, or grows by,
  the derivative. -/
  | outputError (loss : Loss) (value target error width : Nat) (accumulate : Bool)
  /-- The error at `srcError` becomes, or grows by, the error at `dstError` times a transposed
  weight. -/
  | backprop (dstError : Nat) (weight : Slot) (rows cols srcError : Nat) (accumulate : Bool)
  /-- The error is multiplied by the derivative at the pre-activation. -/
  | applyDerivative (derivative : α → α) (z error width : Nat)
  /-- The gradient of a weight grows by the outer product of a value and an error. -/
  | weightGrad (value error rows cols grad : Nat)
  /-- The gradient of a bias grows by an error. -/
  | biasGrad (error grad width : Nat)

/-- A program for a run. -/
abbrev Tape (α : Type) := List (Instr α)

/-- The banks of node vectors. -/
structure Banks (α : Type) where
  /-- The values of the nodes. -/
  value : Buffer α
  /-- The pre-activations of the nodes. -/
  z : Buffer α
  /-- The derivatives of the loss in the pre-activations. -/
  error : Buffer α
  pre : Buffer α
  temp : Buffer α
  deriving Inhabited

namespace Banks

variable {α : Type} [Zero α]

/-- Banks of zeros for evaluation only, without pre-activations and errors. -/
def inference (l : Layout) : Banks α :=
  { value := .zeros l.dataLen
    z := #[]
    error := #[]
    pre := .zeros l.scratchLen
    temp := .zeros l.scratchLen }

/-- Banks of zeros for training. -/
def training (l : Layout) : Banks α :=
  { value := .zeros l.dataLen
    z := .zeros l.dataLen
    error := .zeros l.dataLen
    pre := .zeros l.scratchLen
    temp := .zeros l.scratchLen }

/-- The banks with room for pre-activations and errors, and the values they hold. -/
def ensureTraining (b : Banks α) (l : Layout) : Banks α :=
  if b.z.size = l.dataLen then b
  else { b with z := .zeros l.dataLen, error := .zeros l.dataLen }

/-- A pre-activation vector. -/
def preView (b : Banks α) : PreSlot → Nat → α
  | .scratch => b.pre.view 0
  | .retained offset => b.z.view offset

/-- Changes the buffer of a pre-activation vector, given the offset of the vector in it. -/
def modifyPre (b : Banks α) (pre : PreSlot) (f : Buffer α → Nat → Buffer α) : Banks α :=
  match pre with
  | .scratch => { b with pre := f b.pre 0 }
  | .retained offset => { b with z := f b.z offset }

end Banks

end GraphTape
