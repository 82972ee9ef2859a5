import GraphTape.Proofs.Engine.Private

/-!
# What a session does to parameters

A session is seen as a machine with the vectors of the host and, under each name, the parameters of
the engine there. Calls and edits are commands to that machine: an engine is put under a name, a
call has an effect on the parameters of its engine, or the host is edited. A call without a command
leaves all of it as it is.

* `Machine`, `Command`, `Machine.step`: the machine.
* `Session.Event`, `Session.run`: histories of a session.
* `Session.commands`, `Session.script`: the commands that events are.
* `Trainer.run_actions`: a training run is its training calls.
-/

namespace GraphTape

/-- The vectors of the host, and the parameters of the engine under each name. -/
structure Machine (α : Type) where
  host : Vectors α
  shares : String → Option (Share α)

/-- What can happen to the parameters of a session. -/
inductive Command (α : Type) where
  /-- A new engine is put under a name, with the vectors of the host. -/
  | place (name : String) (ownership : Ownership)
  /-- A call of the engine under a name has an effect. -/
  | effect (name : String) (x : Effect α)
  /-- The vectors of some parameters are changed on the host. -/
  | edit (owners : Owner → Bool) (change : List α → List α)

namespace Machine

variable {α : Type}

/-- What a command makes of the machine. -/
def step (m : Machine α) : Command α → Machine α
  | .place name ownership =>
    { m with shares := Function.update m.shares name (some (.of m.host ownership)) }
  | .effect name x =>
    match m.shares name with
    | none => m
    | some share =>
      let (H, share) := x.run m.host share
      { host := H, shares := Function.update m.shares name (some share) }
  | .edit owners change =>
    { m with host := fun o => if owners o then change (m.host o) else m.host o }

/-- What commands make of the machine, one after the other. -/
def run (m : Machine α) (commands : List (Command α)) : Machine α := commands.foldl step m

/-- The vectors of the engine under a name. -/
def params? (m : Machine α) (name : String) : Option (Vectors α) :=
  (m.shares name).map (Share.params m.host)

/-- The effects of the calls of one engine, one after the other. -/
theorem run_effects {m : Machine α} {name : String} {share : Share α}
    (hs : m.shares name = some share) (xs : List (Effect α)) :
    m.run (xs.map (.effect name)) =
      { host := (xs.foldl (fun x effect => effect.run x.1 x.2) (m.host, share)).1
        shares := Function.update m.shares name
          (some (xs.foldl (fun x effect => effect.run x.1 x.2) (m.host, share)).2) } := by
  induction xs generalizing m share with
  | nil =>
    simp only [List.map_nil, run, List.foldl_nil, ← hs, Function.update_eq_self]
  | cons x xs ih =>
    have hstep : m.step (.effect name x) =
        { host := (x.run m.host share).1,
          shares := Function.update m.shares name (some (x.run m.host share).2) } := by
      simp only [step, hs]
    rw [List.map_cons, run, List.foldl_cons, ← run, hstep, ih (Function.update_self ..)]
    simp only [Function.update_idem, List.foldl_cons]

theorem params?_update (H : Vectors α) (shares : String → Option (Share α)) (name : String)
    (share : Share α) :
    params? { host := H, shares := Function.update shares name (some share) } name =
      some (share.params H) := by
  simp only [params?, Function.update_self, Option.map_some]

/-- A new engine has the vectors of the host. -/
theorem params?_place (m : Machine α) (name : String) (ownership : Ownership) :
    (m.run [.place name ownership]).params? name =
      some (m.run [.place name ownership]).host := by
  refine (params?_update m.host m.shares name _).trans ?_
  cases ownership <;> rfl

/-- An engine has the vectors of the host after the last of any effects. -/
theorem params?_effects {m : Machine α} {name : String} {share : Share α}
    (hs : m.shares name = some share) {xs : List (Effect α)} (hxs : xs ≠ []) :
    (m.run (xs.map (.effect name))).params? name =
      some (m.run (xs.map (.effect name))).host := by
  rw [run_effects hs, params?_update]
  obtain ⟨ys, x, rfl⟩ := (List.eq_nil_or_concat' xs).resolve_left hxs
  rw [List.foldl_append]
  exact congrArg some (Effect.params_run ..)

end Machine

/-! ## Histories -/

/-- What can happen in a session: a call under a name, or reading or writing a host tensor. -/
inductive Session.Event (α : Type) where
  | call (name : String) (c : Call α)
  | edit (owner : Owner) (edit : Edit α)

variable {α : Type} [Scalar α]

namespace Session

/-- What an event makes of a session, with the reply. -/
def next (s : Session α) : Event α → Reply α × Session α
  | .call name c => s.perform name c
  | .edit owner edit => s.edit owner edit

/-- The session after a list of events. -/
def run (s : Session α) (events : List (Event α)) : Session α :=
  events.foldl (fun s event => (s.next event).2) s

/-- The parameters of a session. -/
def machine (s : Session α) : Machine α :=
  { host := s.graph.vectors s.host
    shares := fun name => (s.get? name).map fun o => o.getEngine.share s.host }

end Session

/-! ## Commands -/

/-- The training calls that are made on batches: those up to the first that fails. -/
def Engine.attempts (e : Engine α) (h : Host α) : List (List (Sample α)) → List (Action α)
  | [] => []
  | batch :: batches =>
    .trainStep batch ::
      match e.trainStep h batch with
      | ⟨.error _, _, _⟩ => []
      | ⟨.ok _, e, h⟩ => attempts e h batches

/-- The calls of the engine in a training run: its epochs go through the same batches. -/
def Trainer.actions (t : Trainer α) (h : Host α) (data : List (Sample α)) : List (Action α) :=
  if data.isEmpty then []
  else t.engine.attempts h
    (List.replicate t.config.epochs (batches t.config.batchSize data)).flatten

/-- The calls of its engine with which an occupant answers a request. -/
def Occupant.actions (o : Occupant α) (h : Host α) : Request α → List (Action α)
  | .train data =>
    match o with
    | .engine _ => []
    | .trainer t => t.actions h data
  | .forward sample => [.forward sample]
  | .evaluateMany samples => [.evaluateMany samples]
  | .trainStep batch => [.trainStep batch]
  | .accumulate batch => [.accumulate batch]
  | .apply => [.apply]
  | .sync => [.sync]
  | .reload => [.reload]
  | .intoCompiled | .value _ | .gradients | .optimizer | .weight _ | .bias _ | .params
  | .layout => []

/-- What an edit makes of the vector of its parameter. An assignment of another length fails. -/
def Edit.change : Edit α → List α → List α
  | .read, xs => xs
  | .assign values, xs => if values.size = xs.length then values.toList else xs
  | .set i x, xs => xs.set i x

/-- The parameters whose tensors share their storage with that of an owner: in a graph that can be
compiled, no others. -/
def Graph.storedWith (g : Graph α) (owner o : Owner) : Bool :=
  (g.tensor? owner).any fun t => (g.tensor? o).any t.sameStorage

namespace Session

/-- The commands that an event is. -/
def commands (s : Session α) : Event α → List (Command α)
  | .call name (.compile options train) =>
    match Engine.compile s.graph s.host options train with
    | .error _ => []
    | .ok _ => [.place name options.ownership]
  | .call name (.makeTrainer config) =>
    match Trainer.build s.graph s.host config with
    | .error _ => []
    | .ok _ => [.place name config.options.ownership]
  | .call name (.request r) =>
    match s.get? name with
    | none => []
    | some o => (o.getEngine.effects s.host (o.actions s.host r)).map (.effect name)
  | .edit owner edit => [.edit (s.graph.storedWith owner) edit.change]

/-- The commands that a list of events is. -/
def script (s : Session α) : List (Event α) → List (Command α)
  | [] => []
  | event :: events => s.commands event ++ script (s.next event).2 events

end Session

/-! ## Training runs -/

/-- A run over batches is its training calls, also when other batches follow. -/
theorem Engine.run_attempts_append (e : Engine α) (h : Host α) (total : α)
    (batches rest : List (List (Sample α))) :
    e.run h (e.attempts h (batches ++ rest)) =
      match Trainer.trainBatches e h total batches with
      | ⟨.error _, e, h⟩ => (e, h)
      | ⟨.ok _, e, h⟩ => e.run h (e.attempts h rest) := by
  induction batches generalizing e h total with
  | nil => rfl
  | cons batch batches ih =>
    rw [List.cons_append, attempts, run, Trainer.trainBatches]
    show run (e.trainStep h batch).engine (e.trainStep h batch).host _ = _
    rcases e.trainStep h batch with ⟨fault | loss, e₁, h₁⟩
    · rfl
    · exact ih e₁ h₁ (total + loss)

theorem Engine.run_attempts_replicate (e : Engine α) (h : Host α) (data : List (List (Sample α)))
    (epoch n : Nat) :
    e.run h (e.attempts h (List.replicate n data).flatten) =
      ((Trainer.trainEpochs e h data epoch n).engine,
        (Trainer.trainEpochs e h data epoch n).host) := by
  induction n generalizing e h epoch with
  | zero => rfl
  | succ n ih =>
    rw [List.replicate_succ, List.flatten_cons, e.run_attempts_append h 0 data,
      Trainer.trainEpochs]
    rcases Trainer.trainBatches e h 0 data with ⟨fault | total, e₁, h₁⟩
    · rfl
    · simp only
      rw [ih e₁ h₁ (epoch + 1)]
      rcases Trainer.trainEpochs e₁ h₁ data (epoch + 1) n with ⟨fault | logs, e₂, h₂⟩ <;> rfl

/-- A training run is its training calls. -/
theorem Trainer.run_actions (t : Trainer α) (h : Host α) (data : List (Sample α)) :
    t.engine.run h (t.actions h data) = ((t.train h data).engine, (t.train h data).host) := by
  rw [actions, train]
  split
  · rfl
  · rw [Engine.run_attempts_replicate t.engine h _ 0]
    rcases trainEpochs t.engine h _ 0 _ with ⟨fault | logs, e, h⟩ <;> rfl

end GraphTape
