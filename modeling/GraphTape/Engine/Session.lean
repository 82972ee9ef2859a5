import GraphTape.Engine.Trainer

/-!
# Sessions

One graph, the host memory of its tensors, and any number of engines and trainers compiled from
it, each under a name. All of them see the same host memory.

* `Session.perform`: a call of the engine under a name.
* `Session.edit`: reading and writing a tensor of the graph on the host.
-/

namespace GraphTape

/-- What a name of a session stands for. -/
inductive Occupant (α : Type) where
  | engine (e : Engine α)
  | trainer (t : Trainer α)

namespace Occupant

variable {α : Type}

/-- The engine, also that of a trainer. -/
def getEngine : Occupant α → Engine α
  | engine e => e
  | trainer t => t.engine

/-- The same occupant with another engine. -/
def withEngine (o : Occupant α) (e : Engine α) : Occupant α :=
  match o with
  | engine _ => engine e
  | trainer t => trainer { t with engine := e }

end Occupant

/-- What an engine that exists can be asked for. -/
inductive Request (α : Type) where
  /-- Runs a trainer. -/
  | train (data : List (Sample α))
  /-- Leaves the engine of a trainer in its place. -/
  | intoCompiled
  | forward (sample : Sample α)
  | evaluateMany (samples : List (Sample α))
  | value (node : Nat)
  | trainStep (batch : List (Sample α))
  | accumulate (batch : List (Sample α))
  | apply
  | gradients
  | optimizer
  | weight (edge : Nat)
  | bias (node : Nat)
  | params
  | sync
  | reload
  | layout

/-- The calls under a name. -/
inductive Call (α : Type) where
  /-- Compiles the graph. -/
  | compile (options : Options α) (train : Bool)
  /-- Compiles the graph as a trainer. -/
  | makeTrainer (config : TrainConfig α)
  /-- Asks the engine that is there. -/
  | request (r : Request α)

/-- Reading and writing a host tensor. -/
inductive Edit (α : Type) where
  | read
  | assign (values : Buffer α)
  | set (index : Nat) (value : α)

/-- What a call answers. -/
inductive Reply (α : Type) where
  /-- There is no engine under the name, or no trainer where one is needed. -/
  | noEngine
  | failed (e : Error α)
  | compiled (e : Engine α)
  | trainer (t : Trainer α)
  | report (r : Report α)
  | outputs (o : Outputs α)
  | manyOutputs (os : List (Outputs α))
  | vector (values : List α)
  | vector? (values : Option (List α))
  | loss (value : α)
  | optimizer? (o : Option (Optimizer α))
  | params (ps : List (Owner × List α))
  | layout (l : Layout)
  | done

/-- A graph with its host memory and the engines compiled from it. -/
structure Session (α : Type) where
  graph : Graph α
  host : Host α
  occupants : List (String × Occupant α) := []

namespace Session

variable {α : Type}

/-- What a name stands for. -/
def get? (s : Session α) (name : String) : Option (Occupant α) := s.occupants.lookup name

/-- Puts an occupant under a name, in place of one that is there. -/
def put (s : Session α) (name : String) (o : Occupant α) : Session α :=
  { s with occupants := (name, o) :: s.occupants.filter fun entry => entry.1 != name }

variable [Scalar α]

/-- The session after a call of an occupant's engine, with the reply. -/
def after {β : Type} (s : Session α) (name : String) (o : Occupant α) (outcome : Outcome α β)
    (reply : β → Reply α) : Reply α × Session α :=
  let s := { s with host := outcome.host }.put name (o.withEngine outcome.engine)
  match outcome.result with
  | .error e => (.failed e, s)
  | .ok b => (reply b, s)

/-- Answers a request to an occupant. -/
def serve (s : Session α) (name : String) (o : Occupant α) (r : Request α) :
    Reply α × Session α :=
  let e := o.getEngine
  match r with
  | .train data =>
    match o with
    | .engine _ => (.noEngine, s)
    | .trainer t => s.after name o (t.train s.host data) .report
  | .intoCompiled =>
    match o with
    | .engine _ => (.noEngine, s)
    | .trainer t => (.compiled t.engine, s.put name (.engine t.engine))
  | .forward sample =>
    let (result, e) := e.forward s.host sample
    s.after name o ⟨result, e, s.host⟩ .outputs
  | .evaluateMany samples => s.after name o ⟨e.evaluateMany s.host samples, e, s.host⟩ .manyOutputs
  | .value n => s.after name o ⟨e.value n, e, s.host⟩ .vector
  | .trainStep batch => s.after name o (e.trainStep s.host batch) .loss
  | .accumulate batch => s.after name o (e.accumulate s.host batch) .loss
  | .apply => s.after name o (e.apply s.host) fun _ => .done
  | .gradients => (.vector? (e.gradients?.map Array.toList), s)
  | .optimizer => (.optimizer? e.optimizer?, s)
  | .weight edge => s.after name o ⟨e.weight s.host edge, e, s.host⟩ .vector
  | .bias n => s.after name o ⟨e.bias s.host n, e, s.host⟩ .vector?
  | .params => (.params (e.params s.host), s)
  | .sync => (.done, { s with host := e.sync s.host })
  | .reload => (.done, s.put name (o.withEngine (e.reload s.host)))
  | .layout => (.layout e.layout, s)

/-- A call under a name. Compilation that fails leaves the earlier engine of the name. -/
def perform (s : Session α) (name : String) (c : Call α) : Reply α × Session α :=
  match c with
  | .compile options train =>
    match Engine.compile s.graph s.host options train with
    | .error e => (.failed e, s)
    | .ok e => (.compiled e, s.put name (.engine e))
  | .makeTrainer config =>
    match Trainer.build s.graph s.host config with
    | .error e => (.failed e, s)
    | .ok t => (.trainer t, s.put name (.trainer t))
  | .request r =>
    match s.get? name with
    | none => (.noEngine, s)
    | some o => s.serve name o r

/-- Reads or writes the host tensor of a parameter. Replies with its elements afterwards. -/
def edit (s : Session α) (owner : Owner) (edit : Edit α) : Reply α × Session α :=
  match s.graph.tensor? owner with
  | none => (.noEngine, s)
  | some t =>
    let changed : Except (Error α) (Host α) :=
      match edit with
      | .read => .ok s.host
      | .assign values => s.host.assign t values
      | .set i x => .ok (s.host.set t i x)
    match changed with
    | .error e => (.failed e, s)
    | .ok host => (.vector (host.read t).toList, { s with host })

end Session

end GraphTape
