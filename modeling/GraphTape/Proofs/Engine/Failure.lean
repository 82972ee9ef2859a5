import GraphTape.Proofs.Engine.Batch
import GraphTape.Proofs.Engine.Ownership

/-!
# Calls that fail

A call that fails changes nothing but the packing buffers of the engine, and what stands in these
is never seen: a batch is packed from zeros, and a sample that is packed without a fault
overwrites the whole of its buffer. Two engines that differ in their packing buffers only
therefore answer alike for ever.

* `Engine.Repacked`: the same engine, but for the packing buffers.
* `Engine.repacked_of_failed`: what a failing call leaves.
* `Engine.Repacked.act`, `Engine.Repacked.record_eq`: one call, and a whole history.
-/

namespace GraphTape

variable {α : Type} [Scalar α]

/-- What can happen next to an engine: a call, or a change of the host memory of any kind. -/
inductive Event (α : Type) where
  | call (a : Action α)
  | change (f : Host α → Host α)

namespace Engine

variable {g : Graph α} {s : Schedule} {options : Options α} {train : Bool} {e e' : Engine α}
  {h : Host α}

/-! ## Packing buffers -/

/-- The engine with other contents of its packing buffers. -/
def repack (e : Engine α) (input inputs targets : Buffer α) : Engine α :=
  { e with input, training := e.training.map fun k => { k with inputs, targets } }

/-- `e'` is `e` but for the contents of the packing buffers. The buffer for single samples keeps
its length; those for batches need not. -/
structure Repacked (e e' : Engine α) : Prop where
  size_eq : e'.input.size = e.input.size
  exists_eq : ∃ inputs targets, e' = e.repack e'.input inputs targets

omit [Scalar α] in
theorem Repacked.of_size_eq {input : Buffer α} (hsize : input.size = e.input.size) :
    e.Repacked { e with input } := by
  refine ⟨hsize, ?_⟩
  rcases hk : e.training with - | k
  · exact ⟨#[], #[], by rw [repack, hk, Option.map_none]⟩
  · exact ⟨k.inputs, k.targets, by rw [repack, hk, Option.map_some]⟩

omit [Scalar α] in
theorem Repacked.refl (e : Engine α) : e.Repacked e := .of_size_eq rfl

/-- Nothing that can be seen of an engine lies in its packing buffers. -/
theorem Repacked.observe_eq (hr : e.Repacked e') (g : Graph α) (h : Host α) :
    e'.observe g h = e.observe g h := by
  obtain ⟨-, inputs, targets, heq⟩ := hr
  rw [heq]
  rcases hk : e.training with - | k <;>
    simp only [observe, repack, params, gradients?, optimizer?, hk, Option.map_none,
      Option.map_some] <;> rfl

/-! ## Calls that fail -/

/-- A batch that is not accepted leaves the host and all but the packing buffers. -/
theorem Batched.repacked {batch : List (Sample α)} {outcome : Outcome α α}
    (hb : e.Batched h batch outcome) {fault : Error α} (hf : outcome.result = .error fault) :
    outcome.host = h ∧ e.Repacked outcome.engine := by
  cases hb with
  | notTrainable | empty => exact ⟨rfl, .refl e⟩
  | @refused k _ inputs targets hk =>
    exact ⟨rfl, rfl, inputs, targets, by simp only [repack, hk, Option.map_some]⟩
  | accepted => contradiction

omit [Scalar α] in
/-- A reply of failure comes from a result of failure. -/
theorem eq_error_of_failed {β : Type} {r : β → Reply α} {result : Except (Error α) β}
    {fault : Error α} (hr : ∀ b, r b ≠ .failed fault) (hf : Reply.of r result = .failed fault) :
    result = .error fault := by
  cases result with
  | error e => exact congrArg Except.error (Reply.failed.inj hf)
  | ok b => exact absurd hf (hr b)

/-- A call that fails leaves the host and all but the packing buffers. -/
theorem repacked_of_failed {a : Action α} {fault : Error α} (hf : (e.act h a).1 = .failed fault) :
    (e.act h a).2.2 = h ∧ e.Repacked (e.act h a).2.1 := by
  cases a with
  | forward sample =>
    have hresult := eq_error_of_failed (r := .outputs) (by simp) hf
    refine ⟨rfl, ?_⟩
    have hsize := Layout.size_pack e.layout Region.inputs 0 sample.inputs e.input
    rw [← Layout.packInputs] at hsize
    rcases hpack : e.layout.packInputs 0 sample e.input with ⟨found, input⟩
    rw [hpack] at hsize
    simp only [act, Engine.forward, hpack] at hresult ⊢
    cases found with
    | none => contradiction
    | some found => exact .of_size_eq hsize
  | evaluateMany samples => exact ⟨rfl, .refl e⟩
  | trainStep batch =>
    have hresult := eq_error_of_failed (r := .loss) (by simp) hf
    show (e.trainStep h batch).host = h ∧ e.Repacked (e.trainStep h batch).engine
    refine e.trainStep_cases h batch
      (P := fun o => o.result = .error fault → o.host = h ∧ e.Repacked o.engine) ?_ ?_ hresult
    · exact fun found _ => (batched_accumulate e h batch).repacked
    · exact fun x _ hok => by contradiction
  | accumulate batch =>
    exact (batched_accumulate e h batch).repacked (eq_error_of_failed (r := .loss) (by simp) hf)
  | apply =>
    have hresult := eq_error_of_failed (r := fun _ => .done) (by simp) hf
    show (e.apply h).host = h ∧ e.Repacked (e.apply h).engine
    rw [Engine.apply] at hresult ⊢
    generalize e.training = training at hresult ⊢
    cases training with
    | none => exact ⟨rfl, .refl e⟩
    | some k => contradiction
  | sync => contradiction
  | reload => contradiction

/-! ## Calls that do not see the packing buffers -/

namespace Repacked

/-- Evaluation returns and leaves the same: a sample that is packed fills its buffer. -/
theorem forward {ownership : Ownership} {aux : Nat} (he : e.Sound g s options)
    (hl : Layout.OfSchedule g s ownership aux e.layout) (hr : e.Repacked e') (h : Host α)
    (sample : Sample α) : (e'.forward h sample).1 = (e.forward h sample).1 ∧
      (e.forward h sample).2.Repacked (e'.forward h sample).2 := by
  obtain ⟨hsize, inputs, targets, heq⟩ := hr
  generalize e'.input = input at hsize heq
  subst heq
  have hfault := Layout.fst_pack (l := e.layout) (r := Region.inputs) 0 0 rfl sample.inputs
    e.input input
  have hkept := Layout.size_pack e.layout Region.inputs 0 sample.inputs e.input
  have hkept' := Layout.size_pack e.layout Region.inputs 0 sample.inputs input
  rw [← Layout.packInputs, ← Layout.packInputs] at hfault
  rw [← Layout.packInputs] at hkept hkept'
  rcases hpack : e.layout.packInputs 0 sample e.input with ⟨found, b⟩
  rcases hpack' : e.layout.packInputs 0 sample input with ⟨found', b'⟩
  rw [hpack, hpack'] at hfault
  rw [hpack] at hkept
  rw [hpack'] at hkept'
  obtain rfl : found = found' := hfault
  simp only [Engine.forward, repack, hpack, hpack']
  cases found with
  | some fault => exact ⟨rfl, hkept'.trans (hsize.trans hkept.symm), inputs, targets, rfl⟩
  | none =>
    obtain rfl := Layout.eq_of_pack he.fits (hl.inputs he.fits) he.input (hsize.trans he.input)
      hpack hpack' fun _ => rfl
    exact ⟨rfl, rfl, inputs, targets, rfl⟩

/-- A batch is packed from zeros, so that the buffers of the last one do not matter. -/
theorem accumulate (hr : e.Repacked e') (h : Host α) (batch : List (Sample α)) :
    (e'.accumulate h batch).result = (e.accumulate h batch).result ∧
      (e'.accumulate h batch).host = (e.accumulate h batch).host ∧
      (e.accumulate h batch).engine.Repacked (e'.accumulate h batch).engine := by
  obtain ⟨hsize, inputs, targets, heq⟩ := hr
  generalize e'.input = input at hsize heq
  subst heq
  simp only [Engine.accumulate, runBatch, repack]
  cases hk : e.training with
  | none => exact ⟨rfl, rfl, hsize, inputs, targets, by simp only [repack, hk, Option.map_none]⟩
  | some k =>
    simp only [Option.map_some]
    by_cases hempty : batch.isEmpty = true
    · simp only [hempty, if_true]
      exact ⟨trivial, trivial, hsize, inputs, targets, by simp only [repack, hk, Option.map_some]⟩
    simp only [hempty, Bool.false_eq_true, if_false]
    rcases e.layout.packBatch 0 batch (.zeros (batch.length * e.layout.inputLen))
      (.zeros (batch.length * e.layout.targetLen)) with ⟨fault, inputs', targets'⟩
    cases fault with
    | some fault => exact ⟨rfl, rfl, hsize, inputs', targets', rfl⟩
    | none => exact ⟨rfl, rfl, hsize, inputs', targets', rfl⟩

/-- An update reads the gradients and the parameters only. -/
theorem apply (hr : e.Repacked e') (h : Host α) :
    (e'.apply h).result = (e.apply h).result ∧ (e'.apply h).host = (e.apply h).host ∧
      (e.apply h).engine.Repacked (e'.apply h).engine := by
  obtain ⟨hsize, inputs, targets, heq⟩ := hr
  generalize e'.input = input at hsize heq
  subst heq
  simp only [Engine.apply, repack]
  cases hk : e.training with
  | none => exact ⟨rfl, rfl, hsize, inputs, targets, by simp only [repack, hk, Option.map_none]⟩
  | some k => exact ⟨rfl, rfl, hsize, inputs, targets, rfl⟩

theorem trainStep (hr : e.Repacked e') (h : Host α) (batch : List (Sample α)) :
    (e'.trainStep h batch).result = (e.trainStep h batch).result ∧
      (e'.trainStep h batch).host = (e.trainStep h batch).host ∧
      (e.trainStep h batch).engine.Repacked (e'.trainStep h batch).engine := by
  obtain ⟨hresult, hhost, hengine⟩ := hr.accumulate h batch
  rw [trainStep_eq, trainStep_eq]
  generalize e.accumulate h batch = outcome at hresult hhost hengine ⊢
  generalize e'.accumulate h batch = outcome' at hresult hhost hengine ⊢
  obtain ⟨result, e₁, h₁⟩ := outcome
  obtain ⟨result', e₁', h₁'⟩ := outcome'
  obtain rfl : result' = result := hresult
  obtain rfl : h₁' = h₁ := hhost
  cases result' with
  | error fault => exact ⟨rfl, rfl, hengine⟩
  | ok x => exact ⟨rfl, (hengine.apply h₁').2⟩

omit [Scalar α] in
theorem fields_eq (hr : e.Repacked e') : e'.layout = e.layout ∧ e'.store = e.store ∧
    e'.tape = e.tape ∧ e'.names = e.names ∧ e'.outputs = e.outputs := by
  obtain ⟨-, inputs, targets, heq⟩ := hr
  rw [heq]
  exact ⟨rfl, rfl, rfl, rfl, rfl⟩

/-- Samples that are evaluated together are packed from zeros. -/
theorem evaluateMany_eq (hr : e.Repacked e') (h : Host α) (samples : List (Sample α)) :
    e'.evaluateMany h samples = e.evaluateMany h samples := by
  obtain ⟨hlayout, hstore, htape, hnames, houtputs⟩ := hr.fields_eq
  have hevaluate : ∀ input banks, e'.evaluate h input banks = e.evaluate h input banks :=
    fun input banks => by rw [evaluate, evaluate, hstore, htape]
  have hcollect : e'.collect = e.collect := funext fun v => by
    rw [collect, collect, hlayout, hnames, houtputs]
  have hstride : e'.evaluateStride h = e.evaluateStride h := by
    funext inputs i
    simp only [evaluateStride, hlayout, hevaluate, hcollect]
  rw [Engine.evaluateMany, Engine.evaluateMany, evaluateInOrder, evaluateInOrder, hlayout, hstride]

theorem sync_eq (hr : e.Repacked e') (h : Host α) : e'.sync h = e.sync h := by
  rw [sync, sync, hr.fields_eq.2.1]

theorem reload (hr : e.Repacked e') (h : Host α) : (e.reload h).Repacked (e'.reload h) := by
  obtain ⟨hsize, inputs, targets, heq⟩ := hr
  generalize e'.input = input at hsize heq
  subst heq
  exact ⟨hsize, inputs, targets, rfl⟩

/-- Every call returns and leaves the same. -/
theorem act {ownership : Ownership} {aux : Nat} (he : e.Sound g s options)
    (hl : Layout.OfSchedule g s ownership aux e.layout) (hr : e.Repacked e') (h : Host α)
    (a : Action α) : (e'.act h a).1 = (e.act h a).1 ∧ (e'.act h a).2.2 = (e.act h a).2.2 ∧
      (e.act h a).2.1.Repacked (e'.act h a).2.1 := by
  cases a with
  | forward sample =>
    obtain ⟨hresult, hengine⟩ := hr.forward he hl h sample
    simp only [Engine.act, hresult]
    exact ⟨trivial, trivial, hengine⟩
  | evaluateMany samples =>
    simp only [Engine.act, hr.evaluateMany_eq h samples]
    exact ⟨trivial, trivial, hr⟩
  | trainStep batch =>
    obtain ⟨hresult, hrest⟩ := hr.trainStep h batch
    simp only [Engine.act, hresult]
    exact ⟨trivial, hrest⟩
  | accumulate batch =>
    obtain ⟨hresult, hrest⟩ := hr.accumulate h batch
    simp only [Engine.act, hresult]
    exact ⟨trivial, hrest⟩
  | apply =>
    obtain ⟨hresult, hrest⟩ := hr.apply h
    simp only [Engine.act, hresult]
    exact ⟨trivial, hrest⟩
  | sync => exact ⟨rfl, hr.sync_eq h, hr⟩
  | reload => exact ⟨rfl, rfl, hr.reload h⟩

end Repacked

/-! ## Histories -/

/-- Calls keep the layout. -/
theorem layout_act (e : Engine α) (h : Host α) (a : Action α) :
    (e.act h a).2.1.layout = e.layout := by
  have hbatch : ∀ batch, (e.accumulate h batch).engine.layout = e.layout :=
    fun batch => (batched_accumulate e h batch).fields_eq.1
  have happly : ∀ (e : Engine α) h, (e.apply h).engine.layout = e.layout := fun e h => by
    rw [Engine.apply]
    cases e.training <;> rfl
  cases a with
  | forward sample => exact (e.forward_fields_eq h sample).1
  | trainStep batch =>
    exact e.trainStep_cases h batch (P := fun o => o.engine.layout = e.layout)
      (fun fault _ => hbatch batch) fun x _ => (happly _ _).trans (hbatch batch)
  | accumulate batch => exact hbatch batch
  | apply => exact happly e h
  | evaluateMany | sync | reload => rfl

/-- The layout of an engine is the one its graph was compiled with. -/
theorem ofSchedule_of_reachable (he : Reachable g options train e) (hs : g.schedule = .ok s) :
    Layout.OfSchedule g s options.ownership
      (if train then options.optimizer.auxPerParam else 0) e.layout := by
  induction he with
  | compile hc =>
    obtain ⟨s', l, store, training, rfl, -, hl, -⟩ := compile_spec hc
    obtain ⟨hs', -, -, hlayout⟩ := Layout.compile_spec hl
    obtain rfl := Except.ok.inj (hs'.symm.trans hs)
    exact hlayout
  | act he h a ih => rwa [layout_act]

/-- What an event makes of an engine and of the host memory, with the reply. -/
def next (e : Engine α) (h : Host α) : Event α → Reply α × Engine α × Host α
  | .call a => e.act h a
  | .change f => (.done, e, f h)

/-- Everything that is returned, and can be seen, along a list of events. -/
def record (g : Graph α) (e : Engine α) (h : Host α) :
    List (Event α) → List (Reply α × Observation α × Host α)
  | [] => []
  | event :: events =>
    let (reply, e, h) := e.next h event
    (reply, e.observe g h, h) :: e.record g h events

/-- Engines that differ in their packing buffers only cannot be told apart. -/
theorem Repacked.record_eq {aux : Nat} (he : e.Sound g s options)
    (hl : Layout.OfSchedule g s options.ownership aux e.layout) (hr : e.Repacked e') (h : Host α)
    (events : List (Event α)) : e'.record g h events = e.record g h events := by
  induction events generalizing e e' h with
  | nil => rfl
  | cons event events ih =>
    obtain ⟨hreply, hhost, hnext⟩ : (e'.next h event).1 = (e.next h event).1 ∧
        (e'.next h event).2.2 = (e.next h event).2.2 ∧
        (e.next h event).2.1.Repacked (e'.next h event).2.1 := by
      cases event with
      | call a => exact hr.act he hl h a
      | change f => exact ⟨rfl, rfl, hr⟩
    have hkept : (e.next h event).2.1.Sound g s options ∧
        Layout.OfSchedule g s options.ownership aux (e.next h event).2.1.layout := by
      cases event with
      | call a => exact ⟨he.act h a, e.layout_act h a ▸ hl⟩
      | change f => exact ⟨he, hl⟩
    rw [record, record]
    generalize e.next h event = after at hreply hhost hnext hkept ⊢
    generalize e'.next h event = after' at hreply hhost hnext ⊢
    obtain ⟨reply, e₁, h₁⟩ := after
    obtain ⟨reply', e₁', h₁'⟩ := after'
    obtain rfl : reply' = reply := hreply
    obtain rfl : h₁' = h₁ := hhost
    show (reply', e₁'.observe g h₁', h₁') :: _ = (reply', e₁.observe g h₁', h₁') :: _
    rw [hnext.observe_eq, ih hkept.1 hkept.2 hnext]

/-- **A call that fails leaves no trace.** It changes neither the host nor anything that can be
seen of the engine, and only the packing buffers within it. Whatever happens afterwards, all
replies and everything that can be seen are as if the call had not been made. -/
theorem failed_call_leaves_no_trace (he : Reachable g options train e) {a : Action α}
    {fault : Error α} (hf : (e.act h a).1 = .failed fault) :
    (e.act h a).2.2 = h ∧
      (e.act h a).2.1.observe g h = e.observe g h ∧
      e.Repacked (e.act h a).2.1 ∧
      ∀ (h' : Host α) (events : List (Event α)),
        (e.act h a).2.1.record g h' events = e.record g h' events := by
  obtain ⟨s, hs⟩ := sound_of_reachable he
  have hl := ofSchedule_of_reachable he hs.schedule
  obtain ⟨hhost, hr⟩ := repacked_of_failed hf
  exact ⟨hhost, hr.observe_eq g h, hr, hr.record_eq hs hl⟩

theorem failed_call_leaves_no_trace_chain :
    ∃ (e : Engine ℚ) (fault : Error ℚ),
      compile (.chain 0) .chain .chain true = .ok e ∧
      (e.act .chain (.trainStep [.chain, {}])).1 = .failed fault ∧
      (e.act .chain (.trainStep [.chain, {}])).2.1.training.map Training.inputs ≠
        e.training.map Training.inputs ∧
      ∀ h' events, (e.act .chain (.trainStep [.chain, {}])).2.1.record (.chain 0) h' events =
        e.record (.chain 0) h' events := by
  obtain ⟨e, hc, hrun⟩ := exists_eq_ok (x := compile (.chain 0) .chain .chain true)
    (f := fun e => ((e.trainStep .chain [.chain, {}]).result.toOption.isSome,
      (e.trainStep .chain [.chain, {}]).engine.training.map Training.inputs,
      e.training.map Training.inputs))
    (c := (false, some #[5, 0], some #[])) (by decide +kernel)
  simp only [Prod.mk.injEq] at hrun
  obtain ⟨hresult, hafter, hbefore⟩ := hrun
  rcases hfault : (e.trainStep .chain [.chain, {}]).result with fault | x
  · have hf : (e.act .chain (.trainStep [.chain, {}])).1 = .failed fault := by
      simp only [act, hfault, Reply.of]
    refine ⟨e, fault, hc, hf, ?_, (failed_call_leaves_no_trace (.compile hc) hf).2.2.2⟩
    simp only [act, hafter, hbefore]
    decide
  · simp [hfault, Except.toOption] at hresult

end Engine

end GraphTape
