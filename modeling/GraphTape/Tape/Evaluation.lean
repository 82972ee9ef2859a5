import GraphTape.Tape.Instr

/-!
# Evaluation tapes

The tape that computes the values of all nodes, in schedule order. A source loads its input; any
other node gathers the products of its predecessors with the weights, the first of which is
written and the others added, and then its bias. Every node ends with its activation.
-/

namespace GraphTape

/-- What an evaluation is for. -/
inductive Mode where
  /-- For the values only; all pre-activations share one vector. -/
  | inference
  /-- For a reverse sweep afterwards; every node keeps its pre-activation. -/
  | training
  deriving DecidableEq, Inhabited

namespace Tape

variable {α : Type} [Scalar α]

/-- Where a node's pre-activation is computed. -/
def preSlot (mode : Mode) (slot : NodeSlot) : PreSlot :=
  match mode with
  | .inference => .scratch
  | .training => .retained slot.data

/-- The instructions that gather the pre-activation of a node. -/
def gather (l : Layout) (pre : PreSlot) (slot : NodeSlot) : Tape α :=
  match slot.input with
  | some src => [.loadInput src pre slot.width]
  | none =>
    ((l.afferentSlots slot.id).zipIdx.map fun (e, i) =>
      .matMul (l.dataAt e.src) e.weight e.rows e.cols pre (decide (0 < i))) ++
    (slot.bias.toList.map fun bias => .addBias bias pre slot.width)

/-- The instructions that evaluate one node. -/
def evaluateNode (g : Graph α) (l : Layout) (mode : Mode) (n : Nat) : Tape α :=
  match l.nodes[n]? with
  | none => []
  | some slot =>
    let pre := preSlot mode slot
    gather l pre slot ++ [.activate (g.activation n) pre slot.data slot.width]

/-- The tape that evaluates all nodes in schedule order. -/
def evaluation (g : Graph α) (s : Schedule) (l : Layout) (mode : Mode) : Tape α :=
  s.order.flatMap (evaluateNode g l mode)

end Tape

end GraphTape
