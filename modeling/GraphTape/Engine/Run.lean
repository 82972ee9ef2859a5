import GraphTape.Engine.Basic

/-!
# Calls of an engine

Evaluation, training and access to the parameters. A call that can fail part of the way returns
its result next to the engine it leaves behind; only the packing buffers of a failed call differ
from what they were.

* `Engine.forward`, `Engine.evaluateMany`: the outputs for samples.
* `Engine.accumulate`, `Engine.apply`: the gradients of a batch, and the update from them.
* `Engine.trainStep`: both at once.
-/

namespace GraphTape

/-- The outcome of a call, with the engine and the host memory that it leaves behind. -/
structure Outcome (α β : Type) where
  result : Except (Error α) β
  engine : Engine α
  host : Host α

namespace Engine

variable {α : Type} [Scalar α]

/-! ## Evaluation -/

/-- The values of the output nodes, by name. -/
def collect (e : Engine α) (value : Buffer α) : Outputs α :=
  e.outputs.foldl (fun o n =>
    match e.layout.nodes[n]? with
    | none => o
    | some slot => o.insert (e.names[n]?.getD "") (value.slice slot.data slot.width)) {}

/-- The banks after the evaluation of packed inputs. -/
def evaluate (e : Engine α) (h : Host α) (input : Buffer α) (banks : Banks α) : Banks α :=
  let env : Env α := { params := e.store.view h, input := input.view 0, target := fun _ => 0 }
  (Tape.run env e.tape { banks, grads := #[], loss := 0 }).banks

/-- The outputs for one sample, whose targets do not matter. The values of all nodes stay
readable until the next evaluation. -/
def forward (e : Engine α) (h : Host α) (s : Sample α) :
    Except (Error α) (Outputs α) × Engine α :=
  match e.layout.packInputs 0 s e.input with
  | (some fault, input) => (.error fault, { e with input })
  | (none, input) =>
    let banks := e.evaluate h input e.banks
    (.ok (e.collect banks.value), { e with input, banks })

/-- The outputs for the sample in the `i`th stride of packed inputs, on banks of their own. -/
def evaluateStride (e : Engine α) (h : Host α) (inputs : Buffer α) (i : Nat) : Outputs α :=
  let start := i * e.layout.inputLen
  let input := inputs.extract start (start + e.layout.inputLen)
  e.collect (e.evaluate h input (.inference e.layout)).value

/-- The results of workers that run in the given order. The worker of the `i`th of `n` samples
leaves its result in the `i`th place. -/
def gather {β : Type} (n : Nat) (work : Nat → β) (order : List Nat) : List β :=
  (order.foldl (fun places i => places.set i (some (work i))) (List.replicate n none)).filterMap id

/-- The outputs for many samples, from workers that run in the given order. All samples are packed
before the first worker runs. -/
def evaluateInOrder (e : Engine α) (h : Host α) (samples : List (Sample α)) (order : List Nat) :
    Except (Error α) (List (Outputs α)) :=
  match e.layout.packStrides 0 samples (.zeros (samples.length * e.layout.inputLen)) with
  | .error fault => .error fault
  | .ok inputs => .ok (gather samples.length (e.evaluateStride h inputs) order)

/-- The outputs for many samples. -/
def evaluateMany (e : Engine α) (h : Host α) (samples : List (Sample α)) :
    Except (Error α) (List (Outputs α)) :=
  e.evaluateInOrder h samples (List.range samples.length)

/-- The value of a node after the last evaluation. -/
def value (e : Engine α) (n : Nat) : Except (Error α) (List α) :=
  match e.layout.nodes[n]? with
  | none => .error (.unknownNode n)
  | some slot => .ok (e.banks.value.slice slot.data slot.width)

/-! ## Training -/

/-- The evaluation and the reverse sweep of the `i`th sample of a packed batch. The loss of the
sample is added to the loss so far. -/
def runSample (k : Training α) (l : Layout) (params : Slot → Nat → α) (inputs targets : Buffer α)
    (w : Work α) (i : Nat) : Work α :=
  let env : Env α :=
    { params
      input := inputs.view (i * l.inputLen)
      target := targets.view (i * l.targetLen) }
  let evaluated := Tape.run env k.forward { w with loss := 0 }
  let swept := Tape.run env k.backward { evaluated with loss := 0 }
  { swept with loss := w.loss + swept.loss }

/-- The evaluations and reverse sweeps of a packed batch of `n` samples. -/
def runSamples (k : Training α) (l : Layout) (params : Slot → Nat → α) (inputs targets : Buffer α)
    (n : Nat) (w : Work α) : Work α :=
  (List.range n).foldl (runSample k l params inputs targets) w

/-- Updates the parameters from the gradients and clears these. -/
def stepOptimizer (k : Training α) (store : Store α) (h : Host α) :
    Training α × Store α × Host α :=
  let (optimizer, store, h) := k.optimizer.step k.slots k.grads store h
  ({ k with optimizer, grads := .zeros k.grads.size }, store, h)

/-- The gradients of a batch, from zero, and its loss; with `step`, the parameters are updated
as well. The whole batch is packed before anything else changes. -/
def runBatch (e : Engine α) (h : Host α) (batch : List (Sample α)) (step : Bool) : Outcome α α :=
  match e.training with
  | none => ⟨.error .notTrainable, e, h⟩
  | some k =>
    if batch.isEmpty then ⟨.error .emptyBatch, e, h⟩
    else
      let l := e.layout
      match l.packBatch 0 batch (.zeros (batch.length * l.inputLen))
          (.zeros (batch.length * l.targetLen)) with
      | (some fault, inputs, targets) =>
        ⟨.error fault, { e with training := some { k with inputs, targets } }, h⟩
      | (none, inputs, targets) =>
        let work := runSamples k l (e.store.view h) inputs targets batch.length
          { banks := e.banks.ensureTraining l, grads := .zeros k.grads.size, loss := 0 }
        let k := { k with inputs, targets, grads := work.grads }
        let (k, store, h) := if step then stepOptimizer k e.store h else (k, e.store, h)
        ⟨.ok work.loss, { e with training := some k, banks := work.banks, store }, h⟩

/-- The gradients of a batch, from zero, and its loss. The parameters stay as they are. -/
def accumulate (e : Engine α) (h : Host α) (batch : List (Sample α)) : Outcome α α :=
  e.runBatch h batch false

/-- One training call: the gradients of a batch, one update, and the new parameters copied to
the host. Returns the loss before the update. -/
def trainStep (e : Engine α) (h : Host α) (batch : List (Sample α)) : Outcome α α :=
  match e.runBatch h batch true with
  | ⟨.error fault, e, h⟩ => ⟨.error fault, e, h⟩
  | ⟨.ok loss, e, h⟩ => ⟨.ok loss, e, e.store.sync h⟩

/-- One update from the accumulated gradients, which are cleared, and the new parameters copied
to the host. -/
def apply (e : Engine α) (h : Host α) : Outcome α Unit :=
  match e.training with
  | none => ⟨.error .notTrainable, e, h⟩
  | some k =>
    let (k, store, h) := stepOptimizer k e.store h
    ⟨.ok (), { e with training := some k, store }, store.sync h⟩

/-- The accumulated gradients. -/
def gradients? (e : Engine α) : Option (Buffer α) := e.training.map Training.grads

/-- The optimizer of an engine compiled for training. -/
def optimizer? (e : Engine α) : Option (Optimizer α) := e.training.map Training.optimizer

/-! ## Parameters -/

/-- The values of a weight. -/
def weight (e : Engine α) (h : Host α) (edge : Nat) : Except (Error α) (List α) :=
  match e.layout.edges[edge]? with
  | none => .error (.unknownEdge edge)
  | some slot => .ok (e.store.read h slot.weight)

/-- The values of a node's bias, if it has one. -/
def bias (e : Engine α) (h : Host α) (n : Nat) : Except (Error α) (Option (List α)) :=
  match e.layout.nodes[n]? with
  | none => .error (.unknownNode n)
  | some slot => .ok (slot.bias.map (e.store.read h))

/-- The values of all parameters in flat order. -/
def params (e : Engine α) (h : Host α) : List (Owner × List α) :=
  e.layout.params.map fun (owner, slot) => (owner, e.store.read h slot)

/-- Copies the parameters to the host. -/
def sync (e : Engine α) (h : Host α) : Host α := e.store.sync h

/-- Copies the parameters back from the host. -/
def reload (e : Engine α) (h : Host α) : Engine α := { e with store := e.store.reload h }

end Engine

end GraphTape
