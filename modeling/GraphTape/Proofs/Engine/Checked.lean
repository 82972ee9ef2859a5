import GraphTape.Proofs.Engine.Placed
import GraphTape.Proofs.Tape.Checked

/-!
# Calls that check every access

The calls of an engine with checked runs and checked updates in the places of the total ones: they
stop at the first slice of an instruction or of an update that is out of range or too short. In
every state of an engine next to the host no call stops, and every call has the effect of the
total one.

* `Engine.act?`: a checked call.
* `Engine.calls_stay_in_range`: checked calls do not stop.
-/

namespace GraphTape

variable {α : Type} [Scalar α]

namespace Engine

/-! ## The checked calls -/

/-- The banks after the evaluation of packed inputs. -/
def evaluate? (e : Engine α) (h : Host α) (input : Buffer α) (banks : Banks α) :
    Option (Banks α) := do
  let source : Source α := { param := e.store.part? h, input, target := #[] }
  let w ← Tape.run? source e.tape { banks, grads := #[], loss := 0 }
  some w.banks

/-- The outputs for one sample. -/
def forward? (e : Engine α) (h : Host α) (s : Sample α) :
    Option (Except (Error α) (Outputs α) × Engine α) :=
  match e.layout.packInputs 0 s e.input with
  | (some fault, input) => some (.error fault, { e with input })
  | (none, input) => do
    let banks ← e.evaluate? h input e.banks
    some (.ok (e.collect banks.value), { e with input, banks })

/-- The outputs for the sample in the `i`th stride of packed inputs. -/
def evaluateStride? (e : Engine α) (h : Host α) (inputs : Buffer α) (i : Nat) :
    Option (Outputs α) := do
  let input ← inputs.part? (i * e.layout.inputLen) e.layout.inputLen
  let banks ← e.evaluate? h input (.inference e.layout)
  some (e.collect banks.value)

/-- The outputs for many samples, each on the stride of the sample. -/
def evaluateMany? (e : Engine α) (h : Host α) (samples : List (Sample α)) :
    Option (Except (Error α) (List (Outputs α))) :=
  match e.layout.packStrides 0 samples (.zeros (samples.length * e.layout.inputLen)) with
  | .error fault => some (.error fault)
  | .ok inputs => do
    let outputs ← (List.range samples.length).mapM (e.evaluateStride? h inputs)
    some (.ok outputs)

/-- The evaluation and the reverse sweep of the `i`th sample of a packed batch, each on the stride
of the sample. -/
def runSample? (k : Training α) (l : Layout) (param : Slot → Option (Buffer α))
    (inputs targets : Buffer α) (w : Work α) (i : Nat) : Option (Work α) := do
  let input ← inputs.part? (i * l.inputLen) l.inputLen
  let target ← targets.part? (i * l.targetLen) l.targetLen
  let source : Source α := { param, input, target }
  let evaluated ← Tape.run? source k.forward { w with loss := 0 }
  let swept ← Tape.run? source k.backward { evaluated with loss := 0 }
  some { swept with loss := w.loss + swept.loss }

/-- Updates the parameters from the gradients and clears these. -/
def stepOptimizer? (k : Training α) (store : Store α) (h : Host α) :
    Option (Training α × Store α × Host α) := do
  let (optimizer, store, h) ← k.optimizer.step? k.slots k.grads store h
  some ({ k with optimizer, grads := .zeros k.grads.size }, store, h)

/-- The gradients of a batch and its loss; with `step`, the parameters are updated as well. -/
def runBatch? (e : Engine α) (h : Host α) (batch : List (Sample α)) (step : Bool) :
    Option (Outcome α α) :=
  match e.training with
  | none => some ⟨.error .notTrainable, e, h⟩
  | some k =>
    if batch.isEmpty then some ⟨.error .emptyBatch, e, h⟩
    else
      let l := e.layout
      match l.packBatch 0 batch (.zeros (batch.length * l.inputLen))
          (.zeros (batch.length * l.targetLen)) with
      | (some fault, inputs, targets) =>
        some ⟨.error fault, { e with training := some { k with inputs, targets } }, h⟩
      | (none, inputs, targets) => do
        let work ← (List.range batch.length).foldlM
          (runSample? k l (e.store.part? h) inputs targets)
          { banks := e.banks.ensureTraining l, grads := .zeros k.grads.size, loss := 0 }
        let k := { k with inputs, targets, grads := work.grads }
        let (k, store, h) ← if step then stepOptimizer? k e.store h else some (k, e.store, h)
        some ⟨.ok work.loss, { e with training := some k, banks := work.banks, store }, h⟩

/-- One training call. -/
def trainStep? (e : Engine α) (h : Host α) (batch : List (Sample α)) : Option (Outcome α α) := do
  match ← e.runBatch? h batch true with
  | ⟨.error fault, e, h⟩ => some ⟨.error fault, e, h⟩
  | ⟨.ok loss, e, h⟩ => some ⟨.ok loss, e, e.store.sync h⟩

/-- One update from the accumulated gradients. -/
def update? (e : Engine α) (h : Host α) : Option (Outcome α Unit) :=
  match e.training with
  | none => some ⟨.error .notTrainable, e, h⟩
  | some k => do
    let (k, store, h) ← stepOptimizer? k e.store h
    some ⟨.ok (), { e with training := some k, store }, store.sync h⟩

/-- Makes a call, unless it stops. -/
def act? (e : Engine α) (h : Host α) : Action α → Option (Reply α × Engine α × Host α)
  | .forward sample => do
    let (result, e) ← e.forward? h sample
    some (.of .outputs result, e, h)
  | .evaluateMany samples => do
    let result ← e.evaluateMany? h samples
    some (.of .manyOutputs result, e, h)
  | .trainStep batch => do
    let outcome ← e.trainStep? h batch
    some (.of .loss outcome.result, outcome.engine, outcome.host)
  | .accumulate batch => do
    let outcome ← e.runBatch? h batch false
    some (.of .loss outcome.result, outcome.engine, outcome.host)
  | .apply => do
    let outcome ← e.update? h
    some (.of (fun _ => .done) outcome.result, outcome.engine, outcome.host)
  | .sync => some (.done, e, e.sync h)
  | .reload => some (.done, e.reload h, h)

/-! ## Calls that do not stop -/

section Calls

variable {g : Graph α} {s : Schedule} {options : Options α} {train : Bool} {e : Engine α}
  {h : Host α}

/-- The slices of all parameters can be taken out, with the live values. -/
theorem exists_param {l : Layout} {st : Store α} (hp : st.Placed g l h) (hl : l.Fits g) :
    ∀ slot ∈ l.slots, ∃ p, st.part? h slot = some p ∧ p.size = slot.len ∧
      ∀ i < slot.len, p.view 0 i = st.view h slot i := by
  intro slot hslot
  obtain ⟨o, ho, rfl⟩ := hl.mem_slots.1 hslot
  exact (hp.holds hl ho).exists_part

theorem evaluate?_eq (hp : e.Placed g s options h) {input : Buffer α}
    (hinput : input.size = e.layout.inputLen) {banks : Banks α}
    (hroom : banks.Room e.layout .inference) :
    e.evaluate? h input banks = some (e.evaluate h input banks) := by
  have hserves : Source.Serves { param := e.store.part? h, input, target := #[] } e.layout
      .inference (e.inputEnv h input) :=
    ⟨exists_param hp.store hp.fits, hinput, fun _ _ => rfl, fun hmode => by contradiction,
      fun hmode => by contradiction⟩
  have htape : ∀ i ∈ e.tape, i.InRange e.layout .inference := by
    rw [hp.tape]
    exact Tape.inRange_evaluation hp.schedule hp.fits
  obtain ⟨hrun, -⟩ := Tape.run?_eq hserves htape (s := { banks, grads := #[], loss := 0 })
    ⟨hroom, fun hmode => by contradiction⟩
  rw [evaluate?, hrun]
  rfl

theorem forward?_eq (hp : e.Placed g s options h) (sample : Sample α) :
    e.forward? h sample = some (e.forward h sample) := by
  have hsize := Layout.size_pack e.layout Region.inputs 0 sample.inputs e.input
  rw [← Layout.packInputs] at hsize
  rw [forward?, Engine.forward]
  generalize e.layout.packInputs 0 sample e.input = packed at hsize ⊢
  obtain ⟨fault, input⟩ := packed
  cases fault with
  | some fault => rfl
  | none =>
    simp only [evaluate?_eq hp (hsize.trans hp.input) hp.room.inference, Option.bind_eq_bind,
      Option.bind_some]

/-- A sample within the packed inputs has its stride. -/
theorem evaluateStride?_eq (hp : e.Placed g s options h) {inputs : Buffer α} {n i : Nat}
    (hinputs : inputs.size = n * e.layout.inputLen) (hi : i < n) :
    e.evaluateStride? h inputs i = some (e.evaluateStride h inputs i) := by
  have hroom : i * e.layout.inputLen + e.layout.inputLen ≤ inputs.size := by
    rw [hinputs, ← Nat.succ_mul]
    exact Nat.mul_le_mul_right _ hi
  have hsize : (inputs.extract (i * e.layout.inputLen)
      (i * e.layout.inputLen + e.layout.inputLen)).size = e.layout.inputLen := by
    rw [Array.size_extract]
    omega
  rw [evaluateStride?, Buffer.part?, if_pos hroom]
  simp only [Option.bind_eq_bind, Option.bind_some,
    evaluate?_eq hp hsize (Banks.room_inference _)]
  rfl

theorem evaluateMany?_eq (hp : e.Placed g s options h) (samples : List (Sample α)) :
    e.evaluateMany? h samples = some (e.evaluateMany h samples) := by
  rw [evaluateMany?]
  cases hpack : e.layout.packStrides 0 samples (.zeros (samples.length * e.layout.inputLen)) with
  | error fault => simp only [Engine.evaluateMany, evaluateInOrder, hpack]
  | ok inputs =>
    have hinputs : inputs.size = samples.length * e.layout.inputLen :=
      (Layout.size_packStrides _ _ _ _ _ hpack).trans (Buffer.size_zeros _)
    have hmap : ∀ i ∈ List.range samples.length,
        e.evaluateStride? h inputs i = some (e.evaluateStride h inputs i) :=
      fun i hi => evaluateStride?_eq hp hinputs (List.mem_range.1 hi)
    simp only [mapM_eq_some hmap, evaluateMany_of_packStrides hpack, Option.bind_eq_bind,
      Option.bind_some]

/-- The samples of a packed batch have their strides, and their runs do not stop. -/
theorem runSamples?_eq {l : Layout} {k : Training α} {st : Store α} (hs : g.schedule = .ok s)
    (hl : l.Fits g) (hk : k.Sound g s l options) (hp : st.Placed g l h)
    {inputs targets : Buffer α} {n : Nat} (hinputs : inputs.size = n * l.inputLen)
    (htargets : targets.size = n * l.targetLen) {w : Work α} (hw : w.Room l .training) :
    (List.range n).foldlM (runSample? k l (st.part? h) inputs targets) w =
        some (runSamples k l (st.view h) inputs targets n w) ∧
      (runSamples k l (st.view h) inputs targets n w).Room l .training := by
  refine foldlM_eq_some (I := fun w : Work α => w.Room l .training) (fun i hi w hw => ?_) hw
  have hstride : ∀ len, i * len + len ≤ n * len := fun len => by
    rw [← Nat.succ_mul]
    exact Nat.mul_le_mul_right len (List.mem_range.1 hi)
  obtain ⟨input, hinput, hisize, hiview⟩ := Buffer.exists_part (hinputs.symm ▸ hstride l.inputLen)
  obtain ⟨target, htarget, htsize, htview⟩ :=
    Buffer.exists_part (htargets.symm ▸ hstride l.targetLen)
  have hserves : Source.Serves { param := st.part? h, input, target } l .training
      (sampleEnv l (st.view h) inputs targets i) :=
    ⟨exists_param hp hl, hisize, hiview, fun _ => htsize, fun _ => htview⟩
  have hforward : ∀ i ∈ k.forward, i.InRange l .training := by
    rw [hk.forward]
    exact Tape.inRange_evaluation hs hl
  obtain ⟨hevaluated, hroom⟩ := Tape.run?_eq hserves hforward (s := { w with loss := 0 })
    ⟨hw.banks, hw.grads⟩
  obtain ⟨hswept, hroom⟩ := Tape.run?_eq hserves (Tape.inRange_reverse hl hk.backward)
    (s := { Tape.run (sampleEnv l (st.view h) inputs targets i) k.forward { w with loss := 0 } with
      loss := 0 }) ⟨hroom.banks, hroom.grads⟩
  refine ⟨?_, ⟨hroom.banks, hroom.grads⟩⟩
  simp only [runSample?, hinput, htarget, hevaluated, hswept, Option.bind_eq_bind,
    Option.bind_some]
  rfl

theorem stepOptimizer?_eq {l : Layout} {k : Training α} {st : Store α} (hl : l.Fits g)
    (hp : st.Placed g l h) (hslots : k.slots = l.slots) (hgrads : k.grads.size = l.paramLen)
    (ho : k.optimizer.Fits l) : stepOptimizer? k st h = some (stepOptimizer k st h) := by
  obtain ⟨hstep, -⟩ := ho.step?_eq hp hl hgrads
  rw [stepOptimizer?, hslots, hstep, stepOptimizer, hslots]
  rfl

theorem runBatch?_eq (hp : e.Placed g s options h) (batch : List (Sample α)) (step : Bool) :
    e.runBatch? h batch step = some (e.runBatch h batch step) := by
  rw [runBatch?, Engine.runBatch]
  cases hk : e.training with
  | none => rfl
  | some k =>
    by_cases hempty : batch.isEmpty = true
    · simp only [hempty, if_true]
    simp only [hempty, Bool.false_eq_true, if_false]
    obtain ⟨hinputs, htargets⟩ := Layout.size_packBatch e.layout 0 batch
      (.zeros (batch.length * e.layout.inputLen)) (.zeros (batch.length * e.layout.targetLen))
    generalize e.layout.packBatch 0 batch (.zeros (batch.length * e.layout.inputLen))
      (.zeros (batch.length * e.layout.targetLen)) = packed at hinputs htargets ⊢
    obtain ⟨fault, inputs, targets⟩ := packed
    rw [Buffer.size_zeros] at hinputs htargets
    cases fault with
    | some fault => rfl
    | none =>
      have hsound := hp.toSound.training k hk
      have hroom := hp.room_training hk
      obtain ⟨hrun, hafter⟩ := runSamples?_eq (k := k) hp.schedule hp.fits hsound hp.store hinputs
        htargets (w := { banks := e.banks, grads := .zeros k.grads.size, loss := 0 })
        ⟨hroom, fun _ => (Buffer.size_zeros _).trans hsound.grads⟩
      simp only [hroom.ensureTraining_eq, hrun, Option.bind_eq_bind, Option.bind_some]
      generalize runSamples k e.layout (e.store.view h) inputs targets batch.length _ = work
        at hafter ⊢
      cases step with
      | false => rfl
      | true =>
        rw [if_pos rfl, if_pos rfl, stepOptimizer?_eq
          (k := { k with inputs, targets, grads := work.grads }) hp.fits hp.store hsound.slots
          (hafter.grads rfl) (hp.optimizer k hk)]
        rfl

theorem trainStep?_eq (hp : e.Placed g s options h) (batch : List (Sample α)) :
    e.trainStep? h batch = some (e.trainStep h batch) := by
  rw [trainStep?, runBatch?_eq hp, trainStep, Option.bind_eq_bind, Option.bind_some]
  generalize e.runBatch h batch true = outcome
  obtain ⟨result, e₁, h₁⟩ := outcome
  cases result <;> rfl

theorem update?_eq (hp : e.Placed g s options h) : e.update? h = some (e.apply h) := by
  rw [update?, Engine.apply]
  cases hk : e.training with
  | none => rfl
  | some k =>
    have hsound := hp.toSound.training k hk
    simp only
    rw [stepOptimizer?_eq hp.fits hp.store hsound.slots hsound.grads (hp.optimizer k hk)]
    rfl

/-- **No call indexes out of range.** In every state of an engine next to the host, after any calls
and any writes to host tensors, the slices of all parameters exist, and every checked call comes
to its end, with the effect of the total one: every slice of every instruction and of every update
lies within its region, and is as long as its kernel demands. -/
theorem calls_stay_in_range (hx : Hosted g options train e h) :
    (∀ entry ∈ e.layout.params, ∃ p, e.store.part? h entry.2 = some p ∧ p.size = entry.2.len) ∧
      ∀ a, e.act? h a = some (e.act h a) := by
  obtain ⟨s, hp⟩ := placed_of_hosted hx
  refine ⟨fun entry hentry => ?_, fun a => ?_⟩
  · obtain ⟨p, hpart, hsize, -⟩ := exists_param hp.store hp.fits entry.2
      (List.mem_map.2 ⟨entry, hentry, rfl⟩)
    exact ⟨p, hpart, hsize⟩
  · cases a with
    | forward sample => simp only [act?, forward?_eq hp]; rfl
    | evaluateMany samples => simp only [act?, evaluateMany?_eq hp]; rfl
    | trainStep batch => simp only [act?, trainStep?_eq hp]; rfl
    | accumulate batch => simp only [act?, runBatch?_eq hp]; rfl
    | apply => simp only [act?, update?_eq hp]; rfl
    | sync => rfl
    | reload => rfl

end Calls

theorem calls_stay_in_range_chain :
    ∃ (e : Engine ℚ) (h : Host ℚ),
      compile (.chain 0) .chain { Options.chain with ownership := .reference } true = .ok e ∧
      (HostEdit.assign #[4]).perform .chain ⟨.matrix 1 1, 0⟩ = .ok h ∧
      h.cells = #[#[4], #[3]] ∧
      ∀ batch, e.act? h (.trainStep batch) = some (e.act h (.trainStep batch)) := by
  obtain ⟨e, hc, -⟩ := exists_eq_ok (f := fun _ => ())
    (x := compile (.chain 0) .chain { Options.chain with ownership := .reference } true) (c := ())
    (by decide +kernel)
  have hw : (HostEdit.assign #[4]).perform Host.chain ⟨.matrix 1 1, 0⟩ = .ok ⟨#[#[4], #[3]]⟩ := rfl
  exact ⟨e, _, hc, hw, rfl, fun batch =>
    (calls_stay_in_range (.write (.compile twins_chain.hosted hc) hw)).2 _⟩

end Engine

end GraphTape
