import GraphTape.Engine.Run
import GraphTape.Numeral.Text

/-!
# Trainers

Training in epochs. Every epoch goes through the data in batches, the last of which may be
smaller, and makes one training call for each.

* `Report.ofLogs`: what is reported of a run, from the logs of its epochs.
* `Trainer.train`: the run over all epochs, with a log for each.
* `Report.text`: the run in words.
-/

namespace GraphTape

/-- The settings of a training run. -/
structure TrainConfig (α : Type) where
  epochs : Nat
  /-- The number of samples of a training call. -/
  batchSize : Nat
  options : Options α

/-- What happened in one epoch. -/
structure EpochLog (α : Type) where
  epoch : Nat
  /-- The mean loss of its batches. -/
  loss : α
  batches : Nat
  deriving Inhabited

/-- What happened in a training run. -/
structure Report (α : Type) where
  epochs : List (EpochLog α)
  /-- The loss of the last epoch, and not a number without epochs. -/
  finalLoss : α

/-- The report of a run from the logs of its epochs. -/
def Report.ofLogs {α : Type} [Scalar α] (epochs : List (EpochLog α)) : Report α :=
  { epochs, finalLoss := epochs.getLast?.elim Scalar.nan EpochLog.loss }

/-- The loss of the last epoch, if there was one. -/
def Report.finalLoss? {α : Type} (r : Report α) : Option α := r.epochs.getLast?.map EpochLog.loss

/-- An engine for training with the settings of the run. -/
structure Trainer (α : Type) where
  engine : Engine α
  config : TrainConfig α

/-- Splits a list into batches of `size`, the last of which may be shorter. -/
def batches {β : Type} (size : Nat) (data : List β) : List (List β) :=
  if _h : size = 0 ∨ data = [] then []
  else data.take size :: batches size (data.drop size)
termination_by data.length
decreasing_by
  rw [not_or] at _h
  have := List.length_pos_iff.2 _h.2
  rw [List.length_drop]
  omega

namespace TrainConfig

variable {α : Type} [Scalar α]

/-- One epoch of single samples, with the usual loss and optimizer. -/
def standard : TrainConfig α :=
  { epochs := 1
    batchSize := 1
    options := { ownership := default, loss := default, optimizer := default } }

/-- The first setting out of range. -/
def fault? (c : TrainConfig α) : Option (Error α) :=
  if c.batchSize = 0 then some (.invalidHyperparameter "batch_size" 0 "must be at least 1")
  else c.options.optimizer.fault?

end TrainConfig

namespace Trainer

variable {α : Type} [Scalar α]

/-- Compiles a graph for training with the given settings. -/
def build (g : Graph α) (h : Host α) (config : TrainConfig α) : Except (Error α) (Trainer α) :=
  match config.fault? with
  | some fault => .error fault
  | none =>
    match Engine.compile g h config.options true with
    | .error e => .error e
    | .ok engine => .ok { engine, config }

/-- One training call for each batch. Returns the sum of the losses, added to `total`. -/
def trainBatches (e : Engine α) (h : Host α) (total : α) :
    List (List (Sample α)) → Outcome α α
  | [] => ⟨.ok total, e, h⟩
  | batch :: rest =>
    match e.trainStep h batch with
    | ⟨.error fault, e, h⟩ => ⟨.error fault, e, h⟩
    | ⟨.ok loss, e, h⟩ => trainBatches e h (total + loss) rest

/-- The epochs from the given number on, `n` of them, over the same batches. -/
def trainEpochs (e : Engine α) (h : Host α) (data : List (List (Sample α))) :
    Nat → Nat → Outcome α (List (EpochLog α))
  | _, 0 => ⟨.ok [], e, h⟩
  | epoch, n + 1 =>
    match trainBatches e h 0 data with
    | ⟨.error fault, e, h⟩ => ⟨.error fault, e, h⟩
    | ⟨.ok total, e, h⟩ =>
      let log : EpochLog α :=
        { epoch, loss := total / (data.length : α), batches := data.length }
      match trainEpochs e h data (epoch + 1) n with
      | ⟨.error fault, e, h⟩ => ⟨.error fault, e, h⟩
      | ⟨.ok logs, e, h⟩ => ⟨.ok (log :: logs), e, h⟩

/-- Trains on the data for all epochs. -/
def train (t : Trainer α) (h : Host α) (data : List (Sample α)) : Outcome α (Report α) :=
  if data.isEmpty then ⟨.error .emptyBatch, t.engine, h⟩
  else
    match trainEpochs t.engine h (batches t.config.batchSize data) 0 t.config.epochs with
    | ⟨.error fault, e, h⟩ => ⟨.error fault, e, h⟩
    | ⟨.ok epochs, e, h⟩ => ⟨.ok (.ofLogs epochs), e, h⟩

end Trainer

/-- One line for the epochs, one for each epoch, and one for the last loss. Losses are given to six
decimal places. -/
def Report.text (r : Report Float) : String :=
  s!"Training complete: {r.epochs.length} epochs\n" ++
  String.join (r.epochs.map fun log =>
    s!"  epoch {log.epoch}: loss = {Numeral.fixed 6 log.loss} ({log.batches} batches)\n") ++
  s!"  final loss: {Numeral.fixed 6 r.finalLoss}"

end GraphTape
