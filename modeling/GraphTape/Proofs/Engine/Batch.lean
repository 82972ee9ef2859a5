import GraphTape.Engine.Run

/-!
# The ways of a batch

A batch is turned away before it is packed, refused at its first bad sample, or accepted and run
sample by sample. `Engine.Batched` has one constructor for each way, with everything that is left
behind, and `Engine.batched_accumulate` says that there is no other. Neither a batch nor the
evaluation of a sample changes the layout or the parameters.
-/

namespace GraphTape.Engine

variable {α : Type} [Scalar α]

/-- What the accumulation of a batch leaves, for each of the ways in which it can go. -/
inductive Batched (e : Engine α) (h : Host α) (batch : List (Sample α)) : Outcome α α → Prop
  /-- The engine was compiled for evaluation only. -/
  | notTrainable (hk : e.training = none) : Batched e h batch ⟨.error .notTrainable, e, h⟩
  | empty {k : Training α} (hk : e.training = some k) (hbatch : batch.isEmpty = true) :
      Batched e h batch ⟨.error .emptyBatch, e, h⟩
  /-- A sample is bad: the buffers stay as packing left them. -/
  | refused {k : Training α} {fault : Error α} {inputs targets : Buffer α}
      (hk : e.training = some k) (hbatch : batch.isEmpty = false)
      (hpack : e.layout.packBatch 0 batch (.zeros (batch.length * e.layout.inputLen))
        (.zeros (batch.length * e.layout.targetLen)) = (some fault, inputs, targets)) :
      Batched e h batch ⟨.error fault, { e with training := some { k with inputs, targets } }, h⟩
  | accepted {k : Training α} {inputs targets : Buffer α} {work : Work α}
      (hk : e.training = some k) (hbatch : batch.isEmpty = false)
      (hpack : e.layout.packBatch 0 batch (.zeros (batch.length * e.layout.inputLen))
        (.zeros (batch.length * e.layout.targetLen)) = (none, inputs, targets))
      (hwork : runSamples k e.layout (e.store.view h) inputs targets batch.length
        { banks := e.banks.ensureTraining e.layout, grads := .zeros k.grads.size, loss := 0 } =
          work) :
      Batched e h batch
        ⟨.ok work.loss,
          { e with
            training := some { k with inputs, targets, grads := work.grads }
            banks := work.banks },
          h⟩

/-- Every batch goes one of these ways. -/
theorem batched_accumulate (e : Engine α) (h : Host α) (batch : List (Sample α)) :
    Batched e h batch (e.accumulate h batch) := by
  rw [accumulate, runBatch]
  rcases hk : e.training with - | k
  · exact .notTrainable hk
  · simp only
    rcases hbatch : batch.isEmpty with - | -
    · rw [if_neg Bool.false_ne_true]
      rcases hpack : e.layout.packBatch 0 batch (.zeros (batch.length * e.layout.inputLen))
        (.zeros (batch.length * e.layout.targetLen)) with ⟨fault, inputs, targets⟩
      cases fault with
      | some fault => exact .refused hk hbatch hpack
      | none => exact .accepted hk hbatch hpack rfl
    · rw [if_pos rfl]
      exact .empty hk hbatch

/-- Whichever way a batch goes, the layout, the parameters and the host stay as they are. -/
theorem Batched.fields_eq {e : Engine α} {h : Host α} {batch : List (Sample α)}
    {outcome : Outcome α α} (hb : e.Batched h batch outcome) :
    outcome.engine.layout = e.layout ∧ outcome.engine.store = e.store ∧ outcome.host = h := by
  cases hb <;> exact ⟨rfl, rfl, rfl⟩

/-- Evaluation keeps the layout, the parameters and the training part. -/
theorem forward_fields_eq (e : Engine α) (h : Host α) (sample : Sample α) :
    (e.forward h sample).2.layout = e.layout ∧ (e.forward h sample).2.store = e.store ∧
      (e.forward h sample).2.training = e.training := by
  rw [forward]
  split <;> exact ⟨rfl, rfl, rfl⟩

end GraphTape.Engine
