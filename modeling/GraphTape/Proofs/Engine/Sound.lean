import GraphTape.Engine.Session
import GraphTape.Proofs.Engine.Packing
import GraphTape.Proofs.Scalar.Exact
import GraphTape.Proofs.Tape.Reverse

/-!
# States of an engine

The calls of an engine as data, the states that they lead to from a compiled engine, and what all
of these have in common: the layout fits the graph, the tapes are those of the graph, and every
region is as long as the layout asks for. The host memory may change in any way between calls.

* `Action`, `Engine.act`: the calls that can change an engine, with their replies.
* `Engine.Reachable`: the states of the engines that a graph is compiled to.
* `Engine.Sound`: the invariant (`Engine.sound_of_reachable`).
-/

namespace GraphTape

/-- A call of an engine. -/
inductive Action (α : Type) where
  | forward (sample : Sample α)
  | evaluateMany (samples : List (Sample α))
  | trainStep (batch : List (Sample α))
  | accumulate (batch : List (Sample α))
  | apply
  | sync
  | reload

/-- The reply to a call that may fail. -/
def Reply.of {α β : Type} (reply : β → Reply α) : Except (Error α) β → Reply α
  | .error e => .failed e
  | .ok b => reply b

namespace Engine

variable {α : Type} [Scalar α]

/-- Makes a call. Returns the reply, the engine and the host memory that the call leaves. -/
def act (e : Engine α) (h : Host α) : Action α → Reply α × Engine α × Host α
  | .forward sample => (.of .outputs (e.forward h sample).1, (e.forward h sample).2, h)
  | .evaluateMany samples => (.of .manyOutputs (e.evaluateMany h samples), e, h)
  | .trainStep batch =>
    let outcome := e.trainStep h batch
    (.of .loss outcome.result, outcome.engine, outcome.host)
  | .accumulate batch =>
    let outcome := e.accumulate h batch
    (.of .loss outcome.result, outcome.engine, outcome.host)
  | .apply =>
    let outcome := e.apply h
    (.of (fun _ => .done) outcome.result, outcome.engine, outcome.host)
  | .sync => (.done, e, e.sync h)
  | .reload => (.done, e.reload h, h)

/-- The engines that a graph is compiled to, and those that calls make of them. -/
inductive Reachable (g : Graph α) (options : Options α) (train : Bool) : Engine α → Prop
  | compile {h : Host α} {e : Engine α} (hc : Engine.compile g h options train = .ok e) :
      Reachable g options train e
  | act {e : Engine α} (he : Reachable g options train e) (h : Host α) (a : Action α) :
      Reachable g options train (e.act h a).2.1

end Engine

/-! ## The invariant -/

variable {α : Type} [Scalar α]

/-- The training part of an engine belongs to the graph. -/
structure Training.Sound (g : Graph α) (s : Schedule) (l : Layout) (options : Options α)
    (k : Training α) : Prop where
  forward : k.forward = Tape.evaluation g s l .training
  backward : Tape.reverse g l options.loss = .ok k.backward
  slots : k.slots = l.slots
  grads : k.grads.size = l.paramLen

/-- What the banks of an engine have room for. -/
def Engine.mode (e : Engine α) : Mode := if e.training.isSome then .training else .inference

/-- An engine belongs to a scheduled graph, and its regions are as long as the layout asks for. -/
structure Engine.Sound (g : Graph α) (s : Schedule) (options : Options α) (e : Engine α) :
    Prop where
  schedule : g.schedule = .ok s
  shape : g.shapeFault? = none
  fits : e.layout.Fits g
  tape : e.tape = Tape.evaluation g s e.layout .inference
  names : e.names = g.nodeIds.map g.name
  outputs : e.outputs = g.outputs
  input : e.input.size = e.layout.inputLen
  room : e.banks.Room e.layout e.mode
  training : ∀ k, e.training = some k → k.Sound g s e.layout options

omit [Scalar α] in
theorem Banks.Room.inference {b : Banks α} {l : Layout} {mode : Mode} (h : b.Room l mode) :
    b.Room l .inference :=
  ⟨h.value, h.pre, h.temp, fun hmode => by contradiction, fun hmode => by contradiction⟩

/-- Banks that have room for training are kept for it. -/
theorem Banks.Room.ensureTraining_eq {b : Banks α} {l : Layout} (h : b.Room l .training) :
    b.ensureTraining l = b := by
  rw [Banks.ensureTraining, if_pos (h.z rfl)]

theorem Banks.room_inference (l : Layout) : (Banks.inference l : Banks α).Room l .inference :=
  ⟨Buffer.size_zeros _, Buffer.size_zeros _, Buffer.size_zeros _,
    fun hmode => by contradiction, fun hmode => by contradiction⟩

theorem Banks.room_training (l : Layout) : (Banks.training l : Banks α).Room l .training :=
  ⟨Buffer.size_zeros _, Buffer.size_zeros _, Buffer.size_zeros _,
    fun _ => Buffer.size_zeros _, fun _ => Buffer.size_zeros _⟩

namespace Engine

variable {g : Graph α} {s : Schedule} {options : Options α} {train : Bool} {e : Engine α}
  {h : Host α}

/-! ## Compiled engines -/

theorem sound_compileTraining {l : Layout} {k : Training α}
    (hk : compileTraining g s l options = .ok k) : k.Sound g s l options := by
  rw [compileTraining] at hk
  cases hr : Tape.reverse g l options.loss with
  | error e => simp [hr] at hk
  | ok backward =>
    cases ho : Optimizer.build options.optimizer l.paramLen with
    | error e => simp [hr, ho] at hk
    | ok optimizer =>
      simp only [hr, ho] at hk
      obtain rfl := Except.ok.inj hk
      exact ⟨rfl, hr, rfl, Buffer.size_zeros _⟩

/-- An engine put together from parts that belong to a graph belongs to it as well. -/
theorem sound_assemble {l : Layout} {store : Store α} {training : Option (Training α)}
    (hs : g.schedule = .ok s) (hshape : g.shapeFault? = none) (hl : l.Fits g)
    (ht : ∀ k, training = some k → k.Sound g s l options) :
    (assemble g s l store training).Sound g s options where
  schedule := hs
  shape := hshape
  fits := hl
  tape := rfl
  names := rfl
  outputs := rfl
  input := Buffer.size_zeros _
  room := by
    cases training with
    | none => exact Banks.room_inference l
    | some k => exact Banks.room_training l
  training := ht

/-- What the compilation of an engine consists of. -/
theorem compile_spec (hc : compile g h options train = .ok e) :
    ∃ s l store training, e = assemble g s l store training ∧ training.isSome = train ∧
      Layout.compile g h options.ownership
        (if train then options.optimizer.auxPerParam else 0) = .ok (s, l, store) ∧
      ∀ k, training = some k → compileTraining g s l options = .ok k := by
  cases train with
  | false =>
    rw [compile, if_neg Bool.false_ne_true, compileInference] at hc
    cases hl : Layout.compile g h options.ownership 0 with
    | error e => simp [hl] at hc
    | ok parts =>
      obtain ⟨s, l, store⟩ := parts
      simp only [hl] at hc
      exact ⟨s, l, store, none, (Except.ok.inj hc).symm, rfl, hl, fun k hk => by contradiction⟩
  | true =>
    rw [compile, if_pos rfl, compileTrainable] at hc
    split at hc
    · contradiction
    · cases hl : Layout.compile g h options.ownership options.optimizer.auxPerParam with
      | error e => simp [hl] at hc
      | ok parts =>
        obtain ⟨s, l, store⟩ := parts
        simp only [hl] at hc
        cases ht : compileTraining g s l options with
        | error e => simp [ht] at hc
        | ok k =>
          simp only [ht] at hc
          refine ⟨s, l, store, some k, (Except.ok.inj hc).symm, rfl, hl, fun k' hk' => ?_⟩
          obtain rfl := Option.some.inj hk'
          exact ht

theorem sound_of_compile (hc : compile g h options train = .ok e) :
    ∃ s, e.Sound g s options := by
  obtain ⟨s, l, store, training, rfl, -, hl, ht⟩ := compile_spec hc
  obtain ⟨hs, hshape, -, -⟩ := Layout.compile_spec hl
  exact ⟨s, sound_assemble hs hshape (Layout.fits_of_compile hl)
    fun k hk => sound_compileTraining (ht k hk)⟩

/-! ## Evaluation -/

/-- What a call evaluates: the packed inputs, with the live parameters. -/
def inputEnv (e : Engine α) (h : Host α) (input : Buffer α) : Env α :=
  { params := e.store.view h, input := input.view 0, target := fun _ => 0 }

namespace Sound

theorem acyclic (he : e.Sound g s options) : g.Acyclic := Graph.acyclic_of_schedule he.schedule

/-- Evaluation leaves the values of all nodes in their places, from any contents of the banks. -/
theorem view_evaluate (he : e.Sound g s options) (h : Host α) (input : Buffer α)
    {banks : Banks α} (hroom : banks.Room e.layout .inference) {n : Nat} (hn : n < g.numNodes)
    {i : Nat} (hi : i < g.width n) :
    (e.evaluate h input banks).value.view (e.layout.dataAt n) i =
      Graph.value (e.layout.setting g (e.inputEnv h input)) he.acyclic n i := by
  have heval := evaluated_evaluation he.schedule he.fits he.acyclic (e.inputEnv h input)
    (w := { banks, grads := #[], loss := 0 }) hroom
  rw [evaluate, he.tape]
  exact heval.value n ((Graph.linearizes_of_schedule he.schedule).mem_iff n |>.2 hn) i hi

/-- Evaluation keeps the sizes of all banks. -/
theorem room_evaluate (he : e.Sound g s options) (h : Host α) (input : Buffer α)
    {banks : Banks α} (hroom : banks.Room e.layout e.mode) :
    (e.evaluate h input banks).Room e.layout e.mode := by
  have heval := evaluated_evaluation he.schedule he.fits he.acyclic (e.inputEnv h input)
    (w := { banks, grads := #[], loss := 0 }) hroom.inference
  rw [evaluate, he.tape]
  refine ⟨heval.room.value, heval.room.pre, heval.room.temp, fun hmode => ?_, fun hmode => ?_⟩
  · exact heval.z_size.trans (hroom.z hmode)
  · exact (congrArg Array.size heval.error_eq).trans (hroom.error hmode)

theorem forward (he : e.Sound g s options) (h : Host α) (sample : Sample α) :
    (e.forward h sample).2.Sound g s options := by
  have hsize := Layout.size_pack e.layout Region.inputs 0 sample.inputs e.input
  rw [Engine.forward, Layout.packInputs]
  generalize e.layout.pack Region.inputs 0 sample.inputs e.input = packed at hsize ⊢
  obtain ⟨fault, input⟩ := packed
  cases fault with
  | some fault => exact { he with input := hsize.trans he.input }
  | none =>
    exact { he with
      input := hsize.trans he.input
      room := he.room_evaluate h input he.room }

end Sound

/-! ## Training -/

/-- What the evaluation and the sweep of the `i`th sample of a packed batch read. -/
def sampleEnv (l : Layout) (params : Slot → Nat → α) (inputs targets : Buffer α) (i : Nat) :
    Env α :=
  { params
    input := inputs.view (i * l.inputLen)
    target := targets.view (i * l.targetLen) }

section Samples

variable {l : Layout} {k : Training α} (params : Slot → Nat → α) (inputs targets : Buffer α)
  {w : Work α}

/-- One sample of a batch: its losses are first added to each other, then to the loss so far. -/
theorem runSample_spec (hs : g.schedule = .ok s) (hshape : g.shapeFault? = none) (hl : l.Fits g)
    (hg : g.Acyclic) (hk : k.Sound g s l options) (hroom : w.banks.Room l .training)
    (hgrads : w.grads.size = l.paramLen) (i : Nat) :
    ∃ s', Trained (sampleEnv l params inputs targets i) l options.loss hg { w with loss := 0 } s' ∧
      runSample k l params inputs targets w i = { s' with loss := w.loss + s'.loss } := by
  let env := sampleEnv l params inputs targets i
  let evaluated := Tape.run env k.forward { w with loss := 0 }
  have hloss : evaluated.loss = 0 := by
    show (Tape.run env k.forward { w with loss := 0 }).loss = 0
    rw [hk.forward]
    exact (evaluated_evaluation hs hl hg env (w := { w with loss := 0 }) hroom).loss_eq
  have hreset : ({ evaluated with loss := 0 } : Work α) = evaluated := by rw [← hloss]
  refine ⟨Tape.run env k.backward evaluated, ?_, ?_⟩
  · show Trained env l options.loss hg _
      (Tape.run env k.backward (Tape.run env k.forward { w with loss := 0 }))
    rw [hk.forward]
    exact trained_run hs hshape hl hg hk.backward env hroom hgrads
  · show ({ Tape.run env k.backward { evaluated with loss := 0 } with
      loss := w.loss + (Tape.run env k.backward { evaluated with loss := 0 }).loss } : Work α) = _
    rw [hreset]

theorem runSamples_succ (n : Nat) : runSamples k l params inputs targets (n + 1) w =
    runSample k l params inputs targets (runSamples k l params inputs targets n w) n := by
  rw [runSamples, List.range_succ, List.foldl_append]
  rfl

/-- The samples of a batch keep the sizes of all regions. -/
theorem room_runSamples (hs : g.schedule = .ok s) (hshape : g.shapeFault? = none) (hl : l.Fits g)
    (hk : k.Sound g s l options) (hroom : w.banks.Room l .training)
    (hgrads : w.grads.size = l.paramLen) (n : Nat) :
    (runSamples k l params inputs targets n w).banks.Room l .training ∧
      (runSamples k l params inputs targets n w).grads.size = l.paramLen := by
  induction n with
  | zero => exact ⟨hroom, hgrads⟩
  | succ n ih =>
    obtain ⟨s', htrained, hrun⟩ := runSample_spec params inputs targets hs hshape hl
      (Graph.acyclic_of_schedule hs) hk ih.1 ih.2 n
    rw [runSamples_succ, hrun]
    exact ⟨htrained.room, htrained.grads_size.trans ih.2⟩

end Samples

namespace Sound

theorem room_training (he : e.Sound g s options) {k : Training α} (hk : e.training = some k) :
    e.banks.Room e.layout .training := by
  have hroom := he.room
  rwa [mode, hk, Option.isSome_some, if_pos rfl] at hroom

/-- The invariant of an engine for training after a call that worked on its regions. -/
theorem replace (he : e.Sound g s options) {k : Training α} {banks : Banks α}
    (hk : k.Sound g s e.layout options) (hroom : banks.Room e.layout .training)
    (store : Store α) : Sound g s options { e with training := some k, banks, store } :=
  { he with
    room := hroom
    training := fun k' hk' => by
      obtain rfl := Option.some.inj hk'
      exact hk }

/-- A training call keeps the invariant, whether it fails or not. -/
theorem runBatch (he : e.Sound g s options) (h : Host α) (batch : List (Sample α)) (step : Bool) :
    (e.runBatch h batch step).engine.Sound g s options := by
  rw [Engine.runBatch]
  cases hk : e.training with
  | none => exact he
  | some k =>
    have hsound := he.training k hk
    have hroom := he.room_training hk
    simp only
    split
    · exact he
    · split
      · refine he.replace ?_ hroom e.store
        exact ⟨hsound.forward, hsound.backward, hsound.slots, hsound.grads⟩
      · rename_i inputs targets _
        obtain ⟨hroom', hgrads'⟩ := room_runSamples (e.store.view h) inputs targets
          (w := { banks := e.banks, grads := .zeros k.grads.size, loss := 0 })
          he.schedule he.shape he.fits hsound hroom
          ((Buffer.size_zeros _).trans hsound.grads) batch.length
        rw [hroom.ensureTraining_eq]
        cases step with
        | false =>
          refine he.replace ?_ hroom' e.store
          exact ⟨hsound.forward, hsound.backward, hsound.slots, hgrads'⟩
        | true =>
          refine he.replace ?_ hroom' _
          exact ⟨hsound.forward, hsound.backward, hsound.slots,
            (Buffer.size_zeros _).trans hgrads'⟩

/-- Every call keeps the invariant, whether it fails or not. -/
theorem act (he : e.Sound g s options) (h : Host α) (a : Action α) :
    (e.act h a).2.1.Sound g s options := by
  cases a with
  | forward sample => exact he.forward h sample
  | evaluateMany samples => exact he
  | trainStep batch =>
    have hbatch := he.runBatch h batch true
    show (e.trainStep h batch).engine.Sound g s options
    rw [Engine.trainStep]
    generalize e.runBatch h batch true = outcome at hbatch ⊢
    obtain ⟨result, e', h'⟩ := outcome
    cases result <;> exact hbatch
  | accumulate batch => exact he.runBatch h batch false
  | apply =>
    show (e.apply h).engine.Sound g s options
    rw [Engine.apply]
    cases hk : e.training with
    | none => exact he
    | some k =>
      have hsound := he.training k hk
      refine he.replace ?_ (he.room_training hk) _
      exact ⟨hsound.forward, hsound.backward, hsound.slots,
        (Buffer.size_zeros _).trans hsound.grads⟩
  | sync => exact he
  | reload => exact { he with }

end Sound

/-- Every state of an engine that a graph is compiled to belongs to the graph. -/
theorem sound_of_reachable (he : Reachable g options train e) :
    ∃ s, e.Sound g s options := by
  induction he with
  | compile hc => exact sound_of_compile hc
  | act he h a ih =>
    obtain ⟨s, hs⟩ := ih
    exact ⟨s, hs.act h a⟩

end Engine

/-! ## A chain of two nodes -/

/-- A graph that passes one number on over one edge and adds a bias. Its two parameters are in the
cells `first` and `first + 1`. -/
def Graph.chain (first : Nat) : Graph ℚ where
  nodes :=
    #[{ name := "in", width := 1, activation := .identity },
      { name := "out", width := 1, activation := .identity, isOutput := true,
        bias := some ⟨.vector 1, first + 1⟩ }]
  edges := #[⟨0, 1, ⟨.matrix 1 1, first⟩⟩]
  nodes_pos := by simp
  width_pos := by simp
  ends_lt := by simp
  ends_inj i j e f hi hj _ := by
    obtain ⟨hi, -⟩ := Array.getElem?_eq_some_iff.1 hi
    obtain ⟨hj, -⟩ := Array.getElem?_eq_some_iff.1 hj
    simp only [List.size_toArray, List.length_singleton] at hi hj
    omega

/-- The weight and the bias of the chain. -/
def Host.chain : Host ℚ := ⟨#[#[2], #[3]]⟩

/-- Gradient descent on half the squared error. -/
def Options.chain : Options ℚ := { ownership := .copy, loss := .halfSquare, optimizer := .sgd 1 }

/-- One number in and one number out. -/
def Sample.chain : Sample ℚ := { inputs := [(0, #[5])], targets := [(1, #[10])] }

theorem exists_eq_ok {ε β γ : Type} {x : Except ε β} {f : β → γ} {c : γ}
    (h : x.toOption.map f = some c) : ∃ b, x = .ok b ∧ f b = c := by
  cases x with
  | error e => simp [Except.toOption] at h
  | ok b => exact ⟨b, rfl, Option.some.inj h⟩

end GraphTape
