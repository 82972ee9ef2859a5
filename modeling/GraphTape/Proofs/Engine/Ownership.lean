import GraphTape.Proofs.Engine.Twins
import GraphTape.Proofs.Engine.Workers

/-!
# Ownership cannot be observed

An engine that holds copies of its parameters and one that works on the host tensors themselves
return the same and show the same, call after call, as long as edits of the host are followed by a
reload. Between two calls the live parameters of either engine are the elements of its host
tensors; a call that updates them ends with a copy back to the host.

* `Step`, `Observation`, `Engine.trace`: runs with edits, and what can be seen of them.
* `Engine.Agrees`, `Engine.Settled`: the simulation within a call and between calls.
* `Engine.Settled.trace_eq`, `Engine.copy_trace_eq_reference`: equal runs.
-/

namespace GraphTape

variable {α : Type}

/-- A write to a host tensor: new elements, which must be as many as before, or any change of the
elements in place. -/
inductive HostEdit (α : Type) where
  | assign (values : Buffer α)
  | write (f : Buffer α → Nat → α)

/-- The host memory after a write. -/
def HostEdit.perform (h : Host α) (t : Tensor) : HostEdit α → Except (Error α) (Host α)
  | .assign values => h.assign t values
  | .write f => .ok (h.modify t fun b => b.mapIdx fun i _ => f b i)

/-- One step of a run: a call, or a write to the tensor of a parameter and a reload. -/
inductive Step (α : Type) where
  | call (a : Action α)
  | edit (o : Owner) (change : HostEdit α)

/-- What can be seen of an engine and its host tensors between two steps. -/
structure Observation (α : Type) where
  params : List (Owner × List α)
  gradients : Option (Buffer α)
  optimizer : Option (Optimizer α)
  value : Nat → Except (Error α) (List α)
  tensor : Owner → Option (Buffer α)

variable [Scalar α]

namespace Engine

/-- Makes one step. A failed write leaves the host as it was. -/
def step (g : Graph α) (e : Engine α) (h : Host α) : Step α → Reply α × Engine α × Host α
  | .call a => e.act h a
  | .edit o change =>
    match (g.tensor? o).map (change.perform h) with
    | none => (.done, e.reload h, h)
    | some (.error fault) => (.failed fault, e.reload h, h)
    | some (.ok h) => (.done, e.reload h, h)

/-- What can be seen now. -/
def observe (g : Graph α) (e : Engine α) (h : Host α) : Observation α :=
  { params := e.params h
    gradients := e.gradients?
    optimizer := e.optimizer?
    value := e.value
    tensor := fun o => (g.tensor? o).map h.read }

/-- The replies to a list of steps, each with what can be seen after it. -/
def trace (g : Graph α) (e : Engine α) (h : Host α) :
    List (Step α) → List (Reply α × Observation α)
  | [] => []
  | step :: steps =>
    let (reply, e, h) := e.step g h step
    (reply, e.observe g h) :: e.trace g h steps

/-! ## The simulation -/

/-- Two engines with the same live parameters, node values, gradients and optimizer. Their host
tensors may be out of date. -/
structure Agrees (g g' : Graph α) (s : Schedule) (options : Options α) (x x' : Engine α × Host α) :
    Prop where
  layout : x.1.layout.Matches g g' x'.1.layout
  left : x.1.Sound g s options
  right : x'.1.Sound g' s options
  serves : x.1.store.Serves g x.1.layout x.2
  serves' : x'.1.store.Serves g' x'.1.layout x'.2
  live_eq : ∀ o, (g.tensor? o).isSome = true → ∀ i < g.extent o,
    x.1.live x.2 o i = x'.1.live x'.2 o i
  value_eq : ∀ n < g.numNodes, ∀ i < g.width n,
    x.1.banks.value.view (x.1.layout.dataAt n) i = x'.1.banks.value.view (x'.1.layout.dataAt n) i
  gradients_eq : x.1.gradients? = x'.1.gradients?
  optimizer_eq : x.1.optimizer? = x'.1.optimizer?

/-- Two engines that agree, with host tensors that hold the live parameters. -/
structure Settled (g g' : Graph α) (s : Schedule) (options : Options α)
    (x x' : Engine α × Host α) : Prop extends Agrees g g' s options x x' where
  current : x.1.store.Current g x.1.layout x.2
  current' : x'.1.store.Current g' x'.1.layout x'.2

variable {g g' : Graph α} {s : Schedule} {options : Options α} {e e' : Engine α} {h h' : Host α}

/-- Engines that agree are either both for training or both not. -/
theorem Agrees.training_cases (ha : Agrees g g' s options (e, h) (e', h')) :
    (e.training = none ∧ e'.training = none) ∨
      ∃ k k', e.training = some k ∧ e'.training = some k' ∧ k.grads = k'.grads ∧
        k.optimizer = k'.optimizer := by
  have hgrads := ha.gradients_eq
  have hoptimizer := ha.optimizer_eq
  simp only [gradients?, optimizer?] at hgrads hoptimizer
  rcases hk : e.training with - | k <;> rcases hk' : e'.training with - | k'
  · exact .inl ⟨rfl, rfl⟩
  · simp [hk, hk'] at hgrads
  · simp [hk, hk'] at hgrads
  · rw [hk, hk'] at hgrads hoptimizer
    exact .inr ⟨k, k', rfl, rfl, Option.some.inj hgrads, Option.some.inj hoptimizer⟩

/-- Copying to the host brings host tensors up to date. -/
theorem Agrees.sync (ha : Agrees g g' s options (e, h) (e', h')) :
    Settled g g' s options (e, e.store.sync h) (e', e'.store.sync h') :=
  { ha with
    serves := ha.serves.sync.1
    serves' := ha.serves'.sync.1
    live_eq := fun o ho i hi => by
      simp only [live, Store.view_sync]
      exact ha.live_eq o ho i hi
    current := ha.serves.sync.2
    current' := ha.serves'.sync.2 }

namespace Settled

/-- The host tensors of settled engines are equal. -/
theorem read_eq (hs : Settled g g' s options (e, h) (e', h')) {o : Owner} {t t' : Tensor}
    (ht : g.tensor? o = some t) (ht' : g'.tensor? o = some t') : h.read t = h'.read t' := by
  have hsize := hs.serves.size_read ht
  have hsize' := hs.serves'.size_read ht'
  rw [← hs.layout.alike.extent_eq] at hsize'
  refine Buffer.ext_view (hsize.trans hsize'.symm) fun i hi => ?_
  rw [hsize] at hi
  rw [← hs.current o t ht i hi,
    ← hs.current' o t' ht' i (hs.layout.alike.extent_eq ▸ hi)]
  exact hs.live_eq o (by rw [ht, Option.isSome_some]) i hi

/-- Reading equal host tensors back settles the engines on them. -/
theorem reload (hs : Settled g g' s options (e, h) (e', h')) {h₁ h₁' : Host α}
    (hh : g.HostedBy h₁) (hh' : g'.HostedBy h₁')
    (heq : ∀ o t t', g.tensor? o = some t → g'.tensor? o = some t' → h₁.read t = h₁'.read t') :
    Settled g g' s options (e.reload h₁, h₁) (e'.reload h₁', h₁') := by
  obtain ⟨hserves, hcurrent⟩ := ({ hs.serves with hosted := hh } :
    e.store.Serves g e.layout h₁).reload hs.left.fits
  obtain ⟨hserves', hcurrent'⟩ := ({ hs.serves' with hosted := hh' } :
    e'.store.Serves g' e'.layout h₁').reload hs.right.fits
  exact
    { hs with
      left := { hs.left with }
      right := { hs.right with }
      serves := hserves
      serves' := hserves'
      live_eq := fun o ho i hi => hs.layout.view_eq hcurrent hcurrent' heq ho hi
      current := hcurrent
      current' := hcurrent' }

/-- Settled engines cannot be told apart by looking. -/
theorem observe_eq (hs : Settled g g' s options (e, h) (e', h')) :
    e.observe g h = e'.observe g' h' := by
  have hparams : e.params h = e'.params h' := by
    rw [params, params, hs.left.fits.params, hs.right.fits.params,
      ← hs.layout.alike.owners_eq, List.map_map, List.map_map]
    refine List.map_congr_left fun o ho => ?_
    have ho := Graph.mem_owners.1 ho
    simp only [Function.comp_apply, Store.read, ← hs.layout.len_eq ho, hs.left.fits.len_eq ho]
    exact congrArg (o, ·)
      (List.map_congr_left fun i hi => hs.live_eq o ho i (List.mem_range.1 hi))
  have htensor : ∀ o, (g.tensor? o).map h.read = (g'.tensor? o).map h'.read := by
    intro o
    have hsome := hs.layout.alike.isSome_tensor?_eq o
    rcases ht : g.tensor? o with - | t <;> rcases ht' : g'.tensor? o with - | t'
    · rfl
    · simp [ht, ht'] at hsome
    · simp [ht, ht'] at hsome
    · rw [Option.map_some, Option.map_some, hs.read_eq ht ht']
  rw [observe, observe, hparams, hs.gradients_eq, hs.optimizer_eq, funext htensor,
    funext (hs.left.value_eq hs.right hs.layout.alike hs.value_eq)]

/-! ## Evaluation -/

/-- Evaluation succeeds alike, with the same outputs and node values. -/
theorem forward (hs : Settled g g' s options (e, h) (e', h')) (sample : Sample α) :
    (e.forward h sample).1 = (e'.forward h' sample).1 ∧
      Settled g g' s options ((e.forward h sample).2, h) ((e'.forward h' sample).2, h') := by
  have hleft := hs.left.forward h sample
  have hright := hs.right.forward h' sample
  have hfault : (e.layout.packInputs 0 sample e.input).1 =
      (e'.layout.packInputs 0 sample e'.input).1 :=
    Layout.fst_pack 0 0 hs.layout.inputs_outline sample.inputs e.input e'.input
  cases hpack : (e.layout.packInputs 0 sample e.input).1 with
  | some fault =>
    obtain ⟨input, hf⟩ := forward_of_fault (h := h) hpack
    obtain ⟨input', hf'⟩ := forward_of_fault (h := h') (hfault ▸ hpack)
    rw [hf] at hleft ⊢
    rw [hf'] at hright ⊢
    exact ⟨rfl, { hs with left := hleft, right := hright }⟩
  | none =>
    obtain ⟨outputs, e₁, hf⟩ := forward_of_none (h := h) hpack
    obtain ⟨outputs', e₁', hf'⟩ := forward_of_none (h := h') (hfault ▸ hpack)
    rw [hf] at hleft ⊢
    rw [hf'] at hright ⊢
    obtain ⟨input, banks, rfl, rfl, hvalue⟩ := hs.left.forward_spec hf
    obtain ⟨input', banks', rfl, rfl, hvalue'⟩ := hs.right.forward_spec hf'
    have hsame : ∀ n < g.numNodes, ∀ i < g.width n,
        banks.value.view (e.layout.dataAt n) i = banks'.value.view (e'.layout.dataAt n) i := by
      intro n hn i hi
      rw [hvalue n hn i hi, hvalue' n (hs.layout.alike.numNodes_eq ▸ hn) i
        (hs.layout.alike.width_eq ▸ hi), ← hs.layout.alike.setting_eq,
        ← hs.layout.alike.value_eq _ hs.left.acyclic]
      exact Graph.value_congr (Graph.agree_setting hs.live_eq fun _ _ _ _ _ => rfl) _ hn hi
    exact ⟨congrArg Except.ok (hs.left.collect_eq hs.right hs.layout.alike hsame),
      { hs with left := hleft, right := hright, value_eq := hsame }⟩

theorem evaluateMany_eq (hs : Settled g g' s options (e, h) (e', h'))
    (samples : List (Sample α)) : e.evaluateMany h samples = e'.evaluateMany h' samples := by
  have hpack := Layout.concur_packStrides hs.layout.inputs_outline 0 samples
    (.zeros (samples.length * e.layout.inputLen)) (.zeros (samples.length * e'.layout.inputLen))
  generalize hleft : e.layout.packStrides 0 samples _ = packed at hpack
  generalize hright : e'.layout.packStrides 0 samples _ = packed' at hpack
  cases hpack with
  | error fault => simp only [evaluateMany, evaluateInOrder, hleft, hright]
  | ok _ =>
    have hanswers := hs.left.answers_of_evaluateMany (evaluateMany_of_packStrides (h := h) hleft)
    have hanswers' :=
      hs.right.answers_of_evaluateMany (evaluateMany_of_packStrides (h := h') hright)
    rw [evaluateMany_of_packStrides hleft, evaluateMany_of_packStrides hright]
    refine congrArg Except.ok (eq_of_forall₂ (fun sample outputs outputs' => ?_) hanswers hanswers')
    exact eq_of_answers hs.left hs.right hs.layout.alike hs.live_eq

end Settled

/-! ## Training -/

/-- An update from equal gradients, by equal optimizers, leaves the engines in agreement. -/
theorem Agrees.stepOptimizer (ha : Agrees g g' s options (e, h) (e', h')) {k k' : Training α}
    (hk : k.slots = e.layout.slots) (hk' : k'.slots = e'.layout.slots) (hgrads : k.grads = k'.grads)
    (hoptimizer : k.optimizer = k'.optimizer)
    (hleft : Sound g s options { e with
      training := some (stepOptimizer k e.store h).1, store := (stepOptimizer k e.store h).2.1 })
    (hright : Sound g' s options { e' with
      training := some (stepOptimizer k' e'.store h').1,
      store := (stepOptimizer k' e'.store h').2.1 }) :
    Agrees g g' s options
      ({ e with
        training := some (stepOptimizer k e.store h).1, store := (stepOptimizer k e.store h).2.1 },
        (stepOptimizer k e.store h).2.2)
      ({ e' with
        training := some (stepOptimizer k' e'.store h').1,
        store := (stepOptimizer k' e'.store h').2.1 }, (stepOptimizer k' e'.store h').2.2) := by
  obtain ⟨_, _, slots, grads, optimizer, _, _⟩ := k
  obtain ⟨_, _, slots', grads', optimizer', _, _⟩ := k'
  obtain rfl : slots = e.layout.slots := hk
  obtain rfl : slots' = e'.layout.slots := hk'
  obtain rfl : grads = grads' := hgrads
  obtain rfl : optimizer = optimizer' := hoptimizer
  have hstart : Update.Agrees g g' e.layout e'.layout
      { store := e.store, host := h, aux := optimizer.aux }
      { store := e'.store, host := h', aux := optimizer.aux } :=
    ⟨ha.serves, ha.serves', ha.live_eq, rfl⟩
  obtain ⟨hrule, hupdate⟩ := hstart.step ha.layout optimizer.rule grads
  have hstep : (optimizer.step e.layout.slots grads e.store h).1 =
      (optimizer.step e'.layout.slots grads e'.store h').1 := by
    simp only [Optimizer.step, hrule, hupdate.aux_eq]
  exact
    { layout := ha.layout
      left := hleft
      right := hright
      serves := hupdate.left
      serves' := hupdate.right
      live_eq := hupdate.live_eq
      value_eq := ha.value_eq
      gradients_eq := rfl
      optimizer_eq := congrArg some hstep }

/-- A training call is an accumulation and, if the batch was accepted, an update. -/
theorem trainStep_eq (e : Engine α) (h : Host α) (batch : List (Sample α)) :
    e.trainStep h batch =
      match e.accumulate h batch with
      | ⟨.error fault, e, h⟩ => ⟨.error fault, e, h⟩
      | ⟨.ok x, e, h⟩ => ⟨.ok x, (e.apply h).engine, (e.apply h).host⟩ := by
  rw [trainStep, accumulate, runBatch, runBatch]
  cases e.training with
  | none => rfl
  | some k =>
    by_cases hempty : batch.isEmpty
    · simp only [hempty, if_true]
    · simp only [hempty, Bool.false_eq_true, if_false]
      rcases e.layout.packBatch 0 batch (.zeros (batch.length * e.layout.inputLen))
        (.zeros (batch.length * e.layout.targetLen)) with ⟨fault, inputs, targets⟩
      cases fault <;> rfl

/-- What is true of an accumulation that fails, and of an update after one that does not, is true of
a training call. -/
theorem trainStep_cases {P : Outcome α α → Prop} (e : Engine α) (h : Host α)
    (batch : List (Sample α))
    (hfailed : ∀ fault, (e.accumulate h batch).result = .error fault → P (e.accumulate h batch))
    (happlied : ∀ x, (e.accumulate h batch).result = .ok x →
      P ⟨.ok x, ((e.accumulate h batch).engine.apply (e.accumulate h batch).host).engine,
        ((e.accumulate h batch).engine.apply (e.accumulate h batch).host).host⟩) :
    P (e.trainStep h batch) := by
  rw [trainStep_eq]
  generalize e.accumulate h batch = outcome at hfailed happlied ⊢
  obtain ⟨result, e₁, h₁⟩ := outcome
  cases result with
  | error fault => exact hfailed fault rfl
  | ok x => exact happlied x rfl

namespace Settled

/-- A batch is accepted alike, with the same loss and the same gradients. -/
theorem accumulate (hs : Settled g g' s options (e, h) (e', h')) (batch : List (Sample α)) :
    (e.accumulate h batch).result = (e'.accumulate h' batch).result ∧
      Settled g g' s options ((e.accumulate h batch).engine, (e.accumulate h batch).host)
        ((e'.accumulate h' batch).engine, (e'.accumulate h' batch).host) := by
  have hleft := hs.left.runBatch h batch false
  have hright := hs.right.runBatch h' batch false
  rw [Engine.accumulate, Engine.accumulate]
  rcases hs.training_cases with ⟨hk, hk'⟩ | ⟨k, k', hk, hk', hgrads, hoptimizer⟩
  · simp only [runBatch, hk, hk']
    exact ⟨trivial, hs⟩
  have hsound := hs.left.training k hk
  have hsound' := hs.right.training k' hk'
  by_cases hempty : batch.isEmpty = true
  · simp only [runBatch, hk, hk', hempty, if_true]
    exact ⟨trivial, hs⟩
  have hfault := Layout.fst_packBatch hs.layout.inputs_outline hs.layout.targets_outline 0 batch
    (.zeros (batch.length * e.layout.inputLen)) (.zeros (batch.length * e.layout.targetLen))
    (.zeros (batch.length * e'.layout.inputLen)) (.zeros (batch.length * e'.layout.targetLen))
  rcases hpack : e.layout.packBatch 0 batch (.zeros (batch.length * e.layout.inputLen))
    (.zeros (batch.length * e.layout.targetLen)) with ⟨fault, inputs, targets⟩
  rcases hpack' : e'.layout.packBatch 0 batch (.zeros (batch.length * e'.layout.inputLen))
    (.zeros (batch.length * e'.layout.targetLen)) with ⟨fault', inputs', targets'⟩
  rw [hpack, hpack'] at hfault
  obtain rfl : fault = fault' := hfault
  simp only [runBatch, hk, hempty, hpack, Bool.false_eq_true, if_false] at hleft ⊢
  simp only [runBatch, hk', hempty, hpack', Bool.false_eq_true, if_false] at hright ⊢
  cases fault with
  | some fault =>
    refine ⟨rfl, { hs with left := hleft, right := hright, gradients_eq := ?_, optimizer_eq := ?_ }⟩
    · exact congrArg some hgrads
    · exact congrArg some hoptimizer
  | none =>
    have hroom := hs.left.room_training hk
    have hroom' := hs.right.room_training hk'
    simp only [hroom.ensureTraining_eq] at hleft ⊢
    simp only [hroom'.ensureTraining_eq] at hright ⊢
    have hstart : Work.Agrees g e.layout e'.layout
        { banks := e.banks, grads := .zeros k.grads.size, loss := 0 }
        { banks := e'.banks, grads := .zeros k'.grads.size, loss := 0 } :=
      ⟨by rw [hgrads], rfl, hs.value_eq⟩
    have hwork := agrees_runSamples hs.layout hs.left.schedule hs.left.shape hsound hsound' hroom
      hroom' ((Buffer.size_zeros _).trans hsound.grads) hstart batch.length fun j hj =>
        agrees_packBatch hs.layout hs.live_eq hpack hpack' hj
    refine ⟨congrArg Except.ok hwork.loss_eq, { hs with
      left := hleft, right := hright, value_eq := hwork.value_eq, gradients_eq := ?_,
      optimizer_eq := ?_ }⟩
    · exact congrArg some hwork.grads_eq
    · exact congrArg some hoptimizer

/-- An update leaves the same parameters and brings the host tensors up to date. -/
theorem apply (hs : Settled g g' s options (e, h) (e', h')) :
    (e.apply h).result = (e'.apply h').result ∧
      Settled g g' s options ((e.apply h).engine, (e.apply h).host)
        ((e'.apply h').engine, (e'.apply h').host) := by
  have hleft : (e.apply h).engine.Sound g s options := hs.left.act h .apply
  have hright : (e'.apply h').engine.Sound g' s options := hs.right.act h' .apply
  rcases hs.training_cases with ⟨hk, hk'⟩ | ⟨k, k', hk, hk', hgrads, hoptimizer⟩
  · simp only [Engine.apply, hk, hk']
    exact ⟨trivial, hs⟩
  · simp only [Engine.apply, hk] at hleft ⊢
    simp only [Engine.apply, hk'] at hright ⊢
    exact ⟨trivial, (hs.stepOptimizer (hs.left.training k hk).slots (hs.right.training k' hk').slots
      hgrads hoptimizer hleft hright).sync⟩

/-- A training call returns the same loss and leaves the same parameters. -/
theorem trainStep (hs : Settled g g' s options (e, h) (e', h')) (batch : List (Sample α)) :
    (e.trainStep h batch).result = (e'.trainStep h' batch).result ∧
      Settled g g' s options ((e.trainStep h batch).engine, (e.trainStep h batch).host)
        ((e'.trainStep h' batch).engine, (e'.trainStep h' batch).host) := by
  obtain ⟨hresult, hnext⟩ := hs.accumulate batch
  rw [trainStep_eq, trainStep_eq]
  rcases he : e.accumulate h batch with ⟨result, e₁, h₁⟩
  rcases he' : e'.accumulate h' batch with ⟨result', e₁', h₁'⟩
  rw [he, he'] at hresult hnext
  obtain rfl : result = result' := hresult
  cases result with
  | error fault => exact ⟨rfl, hnext⟩
  | ok x => exact ⟨rfl, hnext.apply.2⟩

/-! ## Runs -/

/-- A write to the host fails alike, and then a reload settles the engines again. -/
theorem edit (hs : Settled g g' s options (e, h) (e', h')) (o : Owner) (change : HostEdit α) :
    (e.step g h (.edit o change)).1 = (e'.step g' h' (.edit o change)).1 ∧
      Settled g g' s options (e.step g h (.edit o change)).2
        (e'.step g' h' (.edit o change)).2 := by
  have hkept := hs.reload hs.serves.hosted hs.serves'.hosted fun _ _ _ => hs.read_eq
  have hsome := hs.layout.alike.shape_eq o
  simp only [step]
  rcases ht : g.tensor? o with - | t <;> rcases ht' : g'.tensor? o with - | t'
  · exact ⟨rfl, hkept⟩
  · simp [ht, ht'] at hsome
  · simp [ht, ht'] at hsome
  · have hshape : t.shape = t'.shape := by simpa [ht, ht'] using hsome
    have hread := hs.read_eq ht ht'
    -- a write that keeps the number of elements can be read alike from both hosts
    have hwrite : ∀ f : Buffer α → Buffer α, (f (h.read t)).size = (h.read t).size →
        Settled g g' s options (e.reload (h.modify t f), h.modify t f)
          (e'.reload (h'.modify t' f), h'.modify t' f) := by
      intro f hf
      refine hs.reload (hs.serves.hosted.modify t hf)
        (hs.serves'.hosted.modify t' (hread ▸ hf)) ?_
      intro p u u' hu hu'
      rw [h.read_modify f (hs.serves.hosted.cell_lt p u hu),
        h'.read_modify f (hs.serves'.hosted.cell_lt p u' hu'), hs.read_eq hu hu']
      by_cases heq : o = p
      · subst heq
        obtain rfl := Option.some.inj (ht.symm.trans hu)
        obtain rfl := Option.some.inj (ht'.symm.trans hu')
        rw [if_pos rfl, if_pos rfl]
      · rw [if_neg fun hcell => heq (hs.serves.apart o p t u ht hu hcell),
          if_neg fun hcell => heq (hs.serves'.apart o p t' u' ht' hu' hcell)]
    cases change with
    | assign values =>
      by_cases hsize : values.size = (h.read t).size
      · simp only [Option.map_some, HostEdit.perform, Host.assign, ← hread, hsize, if_true]
        exact ⟨trivial, hwrite _ hsize⟩
      · simp only [Option.map_some, HostEdit.perform, Host.assign, ← hread, hsize, if_false, hshape]
        exact ⟨trivial, hkept⟩
    | write f => exact ⟨rfl, hwrite _ Array.size_mapIdx⟩

/-- Every step of a run returns the same and settles the engines again. -/
theorem step (hs : Settled g g' s options (e, h) (e', h')) (next : Step α) :
    (e.step g h next).1 = (e'.step g' h' next).1 ∧
      Settled g g' s options (e.step g h next).2 (e'.step g' h' next).2 := by
  cases next with
  | edit o change => exact hs.edit o change
  | call a =>
    cases a with
    | forward sample =>
      obtain ⟨hresult, hnext⟩ := hs.forward sample
      exact ⟨congrArg (Reply.of .outputs) hresult, hnext⟩
    | evaluateMany samples =>
      exact ⟨congrArg (Reply.of .manyOutputs) (hs.evaluateMany_eq samples), hs⟩
    | trainStep batch =>
      obtain ⟨hresult, hnext⟩ := hs.trainStep batch
      exact ⟨congrArg (Reply.of .loss) hresult, hnext⟩
    | accumulate batch =>
      obtain ⟨hresult, hnext⟩ := hs.accumulate batch
      exact ⟨congrArg (Reply.of .loss) hresult, hnext⟩
    | apply =>
      obtain ⟨hresult, hnext⟩ := hs.apply
      exact ⟨congrArg (Reply.of fun _ => .done) hresult, hnext⟩
    | sync => exact ⟨rfl, hs.sync⟩
    | reload =>
      exact ⟨rfl, hs.reload hs.serves.hosted hs.serves'.hosted fun _ _ _ => hs.read_eq⟩

/-- Settled engines show the same along any run. -/
theorem trace_eq (hs : Settled g g' s options (e, h) (e', h')) (steps : List (Step α)) :
    e.trace g h steps = e'.trace g' h' steps := by
  induction steps generalizing e h e' h' with
  | nil => rfl
  | cons next steps ih =>
    obtain ⟨hreply, hnext⟩ := hs.step next
    rw [trace, trace]
    rcases hstep : e.step g h next with ⟨reply, e₁, h₁⟩
    rcases hstep' : e'.step g' h' next with ⟨reply', e₁', h₁'⟩
    rw [hstep, hstep'] at hreply hnext
    obtain rfl : reply = reply' := hreply
    show (reply, e₁.observe g h₁) :: _ = (reply, e₁'.observe g' h₁') :: _
    rw [hnext.observe_eq, ih hnext]

end Settled

/-! ## Compilation -/

section Compile

variable {l l' : Layout} {st st' : Store α}

/-- Sweeps of alike graphs are compiled alike. -/
theorem concur_reverse (hg : g.Alike g') (l l' : Layout) (loss : Loss) :
    Concur (fun _ _ => True) (Tape.reverse g l loss) (Tape.reverse g' l' loss) := by
  rw [Tape.reverse, Tape.reverse, ← hg.nodeIds_eq, ← hg.derivativeFault?_eq, ← hg.settle_eq,
    ← hg.numNodes_eq]
  cases g.nodeIds.findSome? g.derivativeFault? with
  | some fault => exact .error fault
  | none =>
    simp only
    split
    · exact .ok trivial
    · exact .error _

/-- The training parts of alike graphs are compiled alike, with the same optimizer. -/
theorem concur_compileTraining (hl : l.Matches g g' l') (options : Options α)
    (ownership ownership' : Ownership) :
    Concur (fun k k' => k.Sound g s l options ∧ k'.Sound g' s l' options ∧ k.grads = k'.grads ∧
        k.optimizer = k'.optimizer)
      (compileTraining g s l { options with ownership })
      (compileTraining g' s l' { options with ownership := ownership' }) := by
  suffices hparts : Concur
      (fun k k' : Training α => k.grads = k'.grads ∧ k.optimizer = k'.optimizer)
      (compileTraining g s l { options with ownership })
      (compileTraining g' s l' { options with ownership := ownership' }) by
    refine hparts.mono fun k k' hk hk' hsame => ?_
    have hsound := sound_compileTraining hk
    have hsound' := sound_compileTraining hk'
    exact ⟨⟨hsound.forward, hsound.backward, hsound.slots, hsound.grads⟩,
      ⟨hsound'.forward, hsound'.backward, hsound'.slots, hsound'.grads⟩, hsame⟩
  have hreverse := concur_reverse hl.alike l l' options.loss
  rw [compileTraining, compileTraining, ← hl.paramLen_eq]
  generalize Tape.reverse g l options.loss = sweep at hreverse ⊢
  generalize Tape.reverse g' l' options.loss = sweep' at hreverse ⊢
  cases hreverse with
  | error e => exact .error e
  | ok _ =>
    simp only
    cases Optimizer.build options.optimizer l.paramLen with
    | error e => exact .error e
    | ok optimizer => exact .ok ⟨rfl, rfl⟩

/-- Everything an engine is put together from matches. -/
structure Parts (g g' : Graph α) (h h' : Host α) (x x' : Schedule × Layout × Store α) : Prop where
  schedule_eq : x.1 = x'.1
  schedule : g.schedule = .ok x.1
  shape : g.shapeFault? = none
  layout : x.2.1.Matches g g' x'.2.1
  serves : x.2.2.Serves g x.2.1 h
  serves' : x'.2.2.Serves g' x'.2.1 h'
  current : x.2.2.Current g x.2.1 h
  current' : x'.2.2.Current g' x'.2.1 h'
  read_eq : ∀ o t t', g.tensor? o = some t → g'.tensor? o = some t' → h.read t = h'.read t'

theorem concur_parts (ht : g.Twins h g' h') (ownership ownership' : Ownership) (aux : Nat) :
    Concur (Parts g g' h h') (Layout.compile g h ownership aux)
      (Layout.compile g' h' ownership' aux) := by
  refine (ht.concur_compile ownership ownership' aux).mono ?_
  rintro ⟨s, l, st⟩ ⟨s', l', st'⟩ hc hc' hs
  obtain ⟨hschedule, hshape, -, hl⟩ := Layout.compile_spec hc
  obtain ⟨-, -, -, hl'⟩ := Layout.compile_spec hc'
  obtain ⟨hserves, hcurrent⟩ := Store.serves_of_compile hc ht.hosted
  obtain ⟨hserves', hcurrent'⟩ := Store.serves_of_compile hc' ht.hosted'
  exact
    { schedule_eq := hs
      schedule := hschedule
      shape := hshape
      layout :=
        { alike := ht.alike
          left := Layout.fits_of_compile hc
          right := Layout.fits_of_compile hc'
          paramLen_eq := hl.paramLen_congr hl' ht.alike
          flat_eq := fun o ho => hl.flat_eq hl' ht.alike (Graph.mem_owners.2 ho) }
      serves := hserves
      serves' := hserves'
      current := hcurrent
      current' := hcurrent'
      read_eq := ht.read_eq }

/-- Engines put together from matching parts are settled. -/
theorem settled_assemble {training training' : Option (Training α)}
    (hp : Parts g g' h h' (s, l, st) (s, l', st'))
    (hk : ∀ k, training = some k → k.Sound g s l options)
    (hk' : ∀ k, training' = some k → k.Sound g' s l' options)
    (hgrads : training.map Training.grads = training'.map Training.grads)
    (hoptimizer : training.map Training.optimizer = training'.map Training.optimizer) :
    Settled g g' s options (assemble g s l st training, h)
      (assemble g' s l' st' training', h') where
  layout := hp.layout
  left := sound_assemble hp.schedule hp.shape hp.layout.left hk
  right := sound_assemble (hp.layout.alike.schedule_eq ▸ hp.schedule)
    (hp.layout.alike.shapeFault?_eq ▸ hp.shape) hp.layout.right hk'
  serves := hp.serves
  serves' := hp.serves'
  live_eq o ho i hi := hp.layout.view_eq hp.current hp.current' hp.read_eq ho hi
  value_eq n hn i hi := by
    have hzero : ∀ (l : Layout) (training : Option (Training α)) (start : Nat),
        (if training.isSome then Banks.training l else Banks.inference l : Banks α).value.view
          start i = 0 := by
      intro l training start
      split <;> exact Buffer.view_zeros ..
    exact (hzero l training _).trans (hzero l' training' _).symm
  gradients_eq := hgrads
  optimizer_eq := hoptimizer
  current := hp.current
  current' := hp.current'

/-- Twins are compiled alike, to settled engines, under any two ownerships. -/
theorem concur_compile (ht : g.Twins h g' h') (options : Options α) (train : Bool)
    (ownership ownership' : Ownership) :
    Concur (fun e e' => ∃ s, Settled g g' s options (e, h) (e', h'))
      (compile g h { options with ownership } train)
      (compile g' h' { options with ownership := ownership' } train) := by
  cases train with
  | false =>
    have hparts := concur_parts ht ownership ownership' 0
    rw [compile, compile, if_neg Bool.false_ne_true, if_neg Bool.false_ne_true, compileInference,
      compileInference]
    generalize Layout.compile g h ownership 0 = x at hparts ⊢
    generalize Layout.compile g' h' ownership' 0 = x' at hparts ⊢
    cases hparts with
    | error fault => exact .error fault
    | ok hp =>
      rename_i x x'
      obtain ⟨s, l, st⟩ := x
      obtain ⟨s', l', st'⟩ := x'
      obtain rfl : s = s' := hp.schedule_eq
      exact .ok ⟨s, settled_assemble hp (fun k hk => by contradiction)
        (fun k hk => by contradiction) rfl rfl⟩
  | true =>
    have hparts := concur_parts ht ownership ownership' options.optimizer.auxPerParam
    rw [compile, compile, if_pos rfl, if_pos rfl, compileTrainable, compileTrainable]
    cases options.optimizer.fault? with
    | some fault => exact .error fault
    | none =>
      simp only
      generalize Layout.compile g h ownership _ = x at hparts ⊢
      generalize Layout.compile g' h' ownership' _ = x' at hparts ⊢
      cases hparts with
      | error fault => exact .error fault
      | ok hp =>
        rename_i x x'
        obtain ⟨s, l, st⟩ := x
        obtain ⟨s', l', st'⟩ := x'
        obtain rfl : s = s' := hp.schedule_eq
        have htraining := concur_compileTraining (s := s) hp.layout options ownership ownership'
        simp only
        generalize compileTraining g s l { options with ownership } = y at htraining ⊢
        generalize compileTraining g' s l' { options with ownership := ownership' } = y'
          at htraining ⊢
        cases htraining with
        | error fault => exact .error fault
        | ok hk =>
          obtain ⟨hsound, hsound', hgrads, hoptimizer⟩ := hk
          refine .ok ⟨s, settled_assemble hp (fun k hk => ?_) (fun k hk => ?_)
            (congrArg some hgrads) (congrArg some hoptimizer)⟩
          · exact Option.some.inj hk ▸ hsound
          · exact Option.some.inj hk ▸ hsound'

/-- **Ownership cannot be observed.** Twins compiled with copies of their tensors and with the
tensors themselves fail with the same error, or give engines that show the same from the start and
return and show the same after every step of every run of calls and of host edits that a reload
follows. -/
theorem copy_trace_eq_reference (ht : g.Twins h g' h') (options : Options α) (train : Bool) :
    Concur
      (fun e e' => e.observe g h = e'.observe g' h' ∧
        ∀ steps, e.trace g h steps = e'.trace g' h' steps)
      (compile g h { options with ownership := .copy } train)
      (compile g' h' { options with ownership := .reference } train) := by
  refine (concur_compile ht options train .copy .reference).mono ?_
  rintro e e' - - ⟨s, hs⟩
  exact ⟨hs.observe_eq, hs.trace_eq⟩

end Compile

/-- The chain in the first two cells of one host, and in the last two cells of another. -/
theorem twins_chain : (Graph.chain 0).Twins .chain (.chain 1) ⟨#[#[7], #[2], #[3]]⟩ := by
  have htensor : ∀ {first : Nat} {o : Owner} {t : Tensor},
      (Graph.chain first).tensor? o = some t →
        o = .weight 0 ∧ t = ⟨.matrix 1 1, first⟩ ∨ o = .bias 1 ∧ t = ⟨.vector 1, first + 1⟩ := by
    intro first o t ht
    rcases o with e | n
    · rcases e with - | e <;> simp_all [Graph.tensor?, Graph.chain]
    · rcases n with - | - | n <;> simp_all [Graph.tensor?, Graph.bias?, Graph.chain]
  refine ⟨⟨by simp [Graph.chain, Node.outline], by simp [Graph.chain, Edge.outline]⟩,
    ⟨?_, ?_⟩, ⟨?_, ?_⟩, ?_, ?_⟩
  · intro o t ht
    rcases htensor ht with ⟨rfl, rfl⟩ | ⟨rfl, rfl⟩ <;> decide
  · intro o t ht
    rcases htensor ht with ⟨rfl, rfl⟩ | ⟨rfl, rfl⟩ <;> rfl
  · intro o t ht
    rcases htensor ht with ⟨rfl, rfl⟩ | ⟨rfl, rfl⟩ <;> decide
  · intro o t ht
    rcases htensor ht with ⟨rfl, rfl⟩ | ⟨rfl, rfl⟩ <;> rfl
  · intro o t t' ht ht'
    rcases htensor ht with ⟨rfl, rfl⟩ | ⟨rfl, rfl⟩ <;>
      rcases htensor ht' with ⟨heq, rfl⟩ | ⟨heq, rfl⟩ <;> first | rfl | exact absurd heq (by decide)
  · intro o p t u t' u' ht hu ht' hu'
    rcases htensor ht with ⟨rfl, rfl⟩ | ⟨rfl, rfl⟩ <;>
      rcases htensor hu with ⟨rfl, rfl⟩ | ⟨rfl, rfl⟩ <;>
      rcases htensor ht' with ⟨heq, rfl⟩ | ⟨heq, rfl⟩ <;>
      rcases htensor hu' with ⟨heq', rfl⟩ | ⟨heq', rfl⟩ <;>
      first | decide | exact absurd heq (by decide) | exact absurd heq' (by decide)

theorem copy_trace_eq_reference_chain :
    ∃ e e' : Engine ℚ,
      compile (.chain 0) .chain { Options.chain with ownership := .copy } true = .ok e ∧
      compile (.chain 1) ⟨#[#[7], #[2], #[3]]⟩ { Options.chain with ownership := .reference } true =
        .ok e' ∧
      ∀ steps, e.trace (.chain 0) .chain steps =
        e'.trace (.chain 1) ⟨#[#[7], #[2], #[3]]⟩ steps := by
  obtain ⟨e, hc, -⟩ := exists_eq_ok (f := fun _ => ())
    (x := compile (.chain 0) .chain { Options.chain with ownership := .copy } true) (c := ())
    (by decide +kernel)
  have hboth := copy_trace_eq_reference twins_chain .chain true
  rw [hc] at hboth
  generalize hc' : compile (.chain 1) ⟨#[#[7], #[2], #[3]]⟩
    { Options.chain with ownership := .reference } true = x at hboth
  cases hboth with
  | ok htrace => exact ⟨e, _, hc, rfl, htrace.2⟩

end Engine

end GraphTape
