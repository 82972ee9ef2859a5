import GraphTape.Engine.Outputs
import GraphTape.Engine.Sample
import GraphTape.Optimizer.Update
import GraphTape.Tape.Evaluation
import GraphTape.Tape.Reverse
import GraphTape.Tape.Run

/-!
# Engines

A compiled graph with the regions it runs on. Every engine can evaluate samples; one compiled
for training also accumulates gradients and updates the parameters.

`Engine.compile` reports the first reason why a graph cannot be compiled: hyperparameters (for
training), scheduling, shapes, shared storage, and activations without a derivative (for
training).
-/

namespace GraphTape

/-- How a graph is compiled. -/
structure Options (α : Type) where
  ownership : Ownership
  loss : Loss
  optimizer : OptimizerConfig α

/-- The sizes of a compiled graph. -/
structure Stats where
  nodes : Nat
  edges : Nat
  /-- The number of waves. -/
  sets : Nat
  /-- The number of instructions that evaluate a sample. -/
  forward : Nat
  /-- The number of instructions that evaluate a sample in training. -/
  trainingForward : Nat
  /-- The number of instructions of a reverse sweep. -/
  backward : Nat
  params : Nat
  data : Nat
  optimizer : Nat
  deriving DecidableEq, Inhabited

/-- The sizes in one line, with the time that compilation took. -/
def Stats.text (s : Stats) (micros : Nat) : String :=
  s!"CompiledGraph: {s.nodes} nodes, {s.edges} edges in {s.sets} sets; " ++
  s!"{s.forward} forward / {s.trainingForward} training-forward / {s.backward} backward " ++
  s!"instructions; {s.params} params, {s.data} data, {s.optimizer} optimizer; " ++
  s!"compiled in {micros}μs"

/-- What an engine needs in addition for training. -/
structure Training (α : Type) where
  forward : Tape α
  backward : Tape α
  /-- The slots of all parameters in flat order. -/
  slots : List Slot
  /-- One element for each parameter element. -/
  grads : Buffer α
  optimizer : Optimizer α
  /-- The packed inputs of the last batch. -/
  inputs : Buffer α
  /-- The packed targets of the last batch. -/
  targets : Buffer α

/-- A compiled graph with its regions. -/
structure Engine (α : Type) where
  layout : Layout
  store : Store α
  tape : Tape α
  training : Option (Training α)
  /-- The packed inputs of the last sample evaluated. -/
  input : Buffer α
  banks : Banks α
  /-- The names of all nodes. -/
  names : List String
  outputs : List Nat
  stats : Stats

namespace Engine

variable {α : Type} [Scalar α]

/-- The training part of an engine, or the first node that cannot be trained through. -/
def compileTraining (g : Graph α) (s : Schedule) (l : Layout) (options : Options α) :
    Except (Error α) (Training α) :=
  match Tape.reverse g l options.loss with
  | .error e => .error e
  | .ok backward =>
    match Optimizer.build options.optimizer l.paramLen with
    | .error e => .error e
    | .ok optimizer =>
      .ok
        { forward := Tape.evaluation g s l .training
          backward
          slots := l.slots
          grads := .zeros l.paramLen
          optimizer
          inputs := #[]
          targets := #[] }

/-- An engine from the parts of a compiled graph. -/
def assemble (g : Graph α) (s : Schedule) (l : Layout) (store : Store α)
    (training : Option (Training α)) : Engine α :=
  let tape := Tape.evaluation g s l .inference
  { layout := l
    store
    tape
    training
    input := .zeros l.inputLen
    banks := if training.isSome then .training l else .inference l
    names := g.nodeIds.map g.name
    outputs := g.outputs
    stats :=
      { nodes := g.numNodes
        edges := g.numEdges
        sets := s.length
        forward := tape.length
        trainingForward := training.elim 0 fun k => k.forward.length
        backward := training.elim 0 fun k => k.backward.length
        params := l.paramLen
        data := l.dataLen
        optimizer := l.optimizerLen } }

/-- Compiles a graph for evaluation. -/
def compileInference (g : Graph α) (h : Host α) (ownership : Ownership) :
    Except (Error α) (Engine α) :=
  match Layout.compile g h ownership 0 with
  | .error e => .error e
  | .ok (s, l, store) => .ok (assemble g s l store none)

/-- Compiles a graph for evaluation and training. -/
def compileTrainable (g : Graph α) (h : Host α) (options : Options α) :
    Except (Error α) (Engine α) :=
  match options.optimizer.fault? with
  | some fault => .error fault
  | none =>
    match Layout.compile g h options.ownership options.optimizer.auxPerParam with
    | .error e => .error e
    | .ok (s, l, store) =>
      match compileTraining g s l options with
      | .error e => .error e
      | .ok training => .ok (assemble g s l store (some training))

/-- Compiles a graph, with a training part if `train` asks for it. -/
def compile (g : Graph α) (h : Host α) (options : Options α) (train : Bool) :
    Except (Error α) (Engine α) :=
  if train then compileTrainable g h options else compileInference g h options.ownership

/-- Whether the engine was compiled for training. -/
def isTrainable (e : Engine α) : Bool := e.training.isSome

end Engine

end GraphTape
