import Mathlib.Algebra.BigOperators.Ring.Finset
import Mathlib.Algebra.Order.Field.Rat
import GraphTape.Proofs.Engine.Acceptance
import GraphTape.Proofs.Engine.Backward
import GraphTape.Proofs.Engine.Effect
import GraphTape.Proofs.Engine.Parallel

/-!
# Sums over the samples of a batch

In exact arithmetic the loss of a batch and every element of its gradient are sums over its samples,
of numbers that depend on the sample and on the live parameters alone. So batches can be split, put
together and reordered, and what earlier calls have left in the banks and gradients does not count.

* `Graph.lossOf`, `Graph.slopeOf`: the loss of a sample, and its derivative in every element of the
  parameters.
* `Engine.Sound.accumulate_sums`: what a batch that is accepted returns and leaves.
* `Engine.Accepted`: the same with the values and the optimizer.
* `Engine.Hosted.exists_terms`: the same sums for all states with the same parameters.
* `Engine.Placed.live_apply`: the elements of the parameters after an update.
* `Engine.batches_add_up`: batches are additive and free of order.
-/

namespace GraphTape

variable {α : Type} [Scalar α]

/-! ## One sample -/

namespace Graph

variable {g : Graph α}

/-- The loss of a sample, over the output nodes by ascending id. -/
def lossOf (param : Owner → Nat → α) (loss : Loss) (hg : g.Acyclic) (sample : Sample α) : α :=
  Scalar.total (g.outputs.map fun n => loss.value (g.width n)
    (value (g.setting param (vectorOf sample.inputs)) hg n) (vectorOf sample.targets n))

/-- The derivative of the loss of a sample in an element of a parameter, by back propagation. -/
def slopeOf (param : Owner → Nat → α) (loss : Loss) (hg : g.Acyclic) (sample : Sample α) :
    Owner → Nat → α :=
  let σ := g.setting param (vectorOf sample.inputs)
  g.contribution (value σ hg) (delta σ loss (vectorOf sample.targets) hg)

variable {param param' : Owner → Nat → α} {loss : Loss} {hg : g.Acyclic} {sample : Sample α}

theorem lossOf_congr
    (h : ∀ o, (g.tensor? o).isSome = true → ∀ i < g.extent o, param o i = param' o i) :
    lossOf param loss hg sample = lossOf param' loss hg sample := by
  refine congrArg Scalar.total (List.map_congr_left fun n hn => ?_)
  have hlt : n < g.numNodes := g.mem_nodeIds.1 (List.mem_filter.1 hn).1
  exact loss.value_congr (fun i hi => value_congr (agree_setting h fun _ _ _ _ _ => rfl) hg hlt hi)
    fun _ _ => rfl

theorem slopeOf_congr
    (h : ∀ o, (g.tensor? o).isSome = true → ∀ i < g.extent o, param o i = param' o i)
    {o : Owner} (ho : (g.tensor? o).isSome = true) {i : Nat} (hi : i < g.extent o) :
    slopeOf param loss hg sample o i = slopeOf param' loss hg sample o i := by
  have hagree : Setting.Agree g (g.setting param (vectorOf sample.inputs))
      (g.setting param' (vectorOf sample.inputs)) := agree_setting h fun _ _ _ _ _ => rfl
  exact contribution_congr ho hi (fun p hp r hr => value_congr hagree hg hp.lt.1 hr)
    fun c hc => delta_congr hagree (fun _ _ _ _ _ => rfl) hg (sink_lt ho) hc

/-- Along a direction the loss of a sample is the one that it is without. -/
theorem re_sampleLoss_eq_lossOf (direction : Owner → Nat → α) :
    (sampleLoss (g.dualSetting param direction (vectorOf sample.inputs)) loss
      (vectorOf sample.targets) hg).re = lossOf param loss hg sample := by
  rw [sampleLoss, Dual.re_total, List.map_map, lossOf]
  refine congrArg Scalar.total (List.map_congr_left fun n _ => ?_)
  simp only [Function.comp_apply, Loss.dual, re_value]

end Graph

/-- The settings of a rule. -/
def Rule.config : Rule α → OptimizerConfig α
  | sgd lr => .sgd lr
  | adam config _ => .adam config

namespace Engine

variable {g : Graph α} {s : Schedule} {options : Options α} {train : Bool} {e e' : Engine α}
  {h h' : Host α}

/-! ## One update -/

namespace Placed

/-- An update moves every element of the parameters by the gradient at its place. -/
theorem live_apply (hp : e.Placed g s options h) {k : Training α} (hk : e.training = some k)
    {o : Owner} (ho : (g.tensor? o).isSome = true) {i : Nat} (hi : i < g.extent o) :
    (e.apply h).engine.live (e.apply h).host o i =
      k.optimizer.rule.moved k.grads k.optimizer.aux ((e.layout.slotOf o).flat + i)
        (e.live h o i) := by
  have hsound := hp.toSound.training k hk
  have hvectors := ((hp.optimizer k hk).step_spec hp.store hp.fits hsound.grads).1
  rw [← hsound.slots] at hvectors
  simp only [Engine.apply, hk, stepOptimizer, live]
  generalize k.optimizer.step k.slots k.grads e.store h = stepped at hvectors ⊢
  obtain ⟨optimizer, st, h₁⟩ := stepped
  have hread := congrArg (fun P : Vectors α => (P o)[i]?) hvectors
  have hlen : i < (e.layout.slotOf o).len := hp.fits.len_eq ho ▸ hi
  simpa [Store.vectors, Store.read, Optimizer.result, hlen, Store.view_sync] using hread

end Placed

theorem Hosted.reachable (hx : Hosted g options train e h) : Reachable g options train e := by
  induction hx with
  | compile hh hc => exact .compile hc
  | act hx a ih => exact ih.act _ a
  | write hx hw ih => exact ih

/-- An engine keeps the settings of the rule that it was compiled with. -/
theorem config_of_reachable (he : Reachable g options train e) {k : Training α}
    (hk : e.training = some k) : k.optimizer.rule.config = options.optimizer := by
  have hconfig : ∀ config ∈ e.optimizer?.map (·.rule.config), config = options.optimizer := by
    clear hk
    induction he with
    | compile hc =>
      obtain ⟨s, l, store, training, rfl, -, -, htraining⟩ := compile_spec hc
      intro config hconfig
      obtain ⟨o, ho, rfl⟩ := Option.map_eq_some_iff.1 hconfig
      obtain ⟨k, hk, rfl⟩ := Option.map_eq_some_iff.1 ho
      rw [Optimizer.eq_of_build (compileTraining_spec (htraining k hk)).1]
      cases options.optimizer <;> rfl
    | act he h a ih =>
      rwa [optimizer?_act fun o slots grads st h => ?_]
      rw [Optimizer.step]
      cases o.rule <;> rfl
  exact hconfig _ (by simp [optimizer?, hk])

theorem live_congr (hlayout : e'.layout = e.layout) (hstore : e'.store = e.store) :
    e'.live h = e.live h := by
  funext o
  rw [live, live, hlayout, hstore]

/-! ## Batches that are accepted -/

/-- A batch that is accepted leaves the host as it is. -/
theorem accumulate_eq_ok {batch : List (Sample α)} {x : α}
    (hresult : (e.accumulate h batch).result = .ok x) :
    e.accumulate h batch = ⟨.ok x, (e.accumulate h batch).engine, h⟩ := by
  obtain ⟨-, -, hhost⟩ := (batched_accumulate e h batch).fields_eq
  generalize e.accumulate h batch = outcome at hresult hhost
  obtain ⟨result, e', h'⟩ := outcome
  obtain rfl : h' = h := hhost
  obtain rfl : result = .ok x := hresult
  rfl

/-- A batch that is accepted has samples, and the graph accepts all of them. -/
theorem Hosted.accepts_of_accumulate (hx : Hosted g options true e h) {batch : List (Sample α)}
    {x : α} (hresult : (e.accumulate h batch).result = .ok x) :
    batch ≠ [] ∧ ∀ sample ∈ batch, g.Accepts sample := by
  obtain ⟨s, hp⟩ := placed_of_hosted hx
  exact (exists_accumulate_iff hp.toSound (isTrainable_of_reachable hx.reachable) h batch).1
    ⟨x, hresult⟩

/-- A batch of samples that the graph accepts is accepted. -/
theorem Hosted.exists_accumulate (hx : Hosted g options true e h) (batch : List (Sample α))
    (hne : batch ≠ []) (haccepts : ∀ sample ∈ batch, g.Accepts sample) :
    ∃ x e', e.accumulate h batch = ⟨.ok x, e', h⟩ := by
  obtain ⟨s, hp⟩ := placed_of_hosted hx
  obtain ⟨x, hresult⟩ := (exists_accumulate_iff hp.toSound
    (isTrainable_of_reachable hx.reachable) h batch).2 ⟨hne, haccepts⟩
  exact ⟨x, _, accumulate_eq_ok hresult⟩

/-- A batch that is accepted leaves the values of its last sample. -/
theorem Sound.value_of_accumulate (he : e.Sound g s options) {front : List (Sample α)}
    {last : Sample α} {x : α} (hacc : e.accumulate h (front ++ [last]) = ⟨.ok x, e', h'⟩) {n : Nat}
    (hn : n < g.numNodes) {i : Nat} (hi : i < g.width n) :
    e'.banks.value.view (e'.layout.dataAt n) i =
      Graph.value (g.setting (e.live h) (vectorOf last.inputs)) he.acyclic n i := by
  have hbatched := batched_accumulate e h (front ++ [last])
  rw [hacc] at hbatched
  cases hbatched with
  | @accepted k inputs targets work hk _ hpack hwork =>
    have hsound := he.training k hk
    have hroom := he.room_training hk
    have hzeros : (Buffer.zeros k.grads.size : Buffer α).size = e.layout.paramLen :=
      (Buffer.size_zeros _).trans hsound.grads
    rw [hroom.ensureTraining_eq, List.length_append, List.length_singleton,
      runSamples_succ] at hwork
    obtain ⟨hroom', hsize⟩ := room_runSamples (e.store.view h) inputs targets
      (w := { banks := e.banks, grads := .zeros k.grads.size, loss := 0 })
      he.schedule he.shape he.fits hsound hroom hzeros front.length
    obtain ⟨t, htrained, hrun⟩ := runSample_spec (e.store.view h) inputs targets he.schedule
      he.shape he.fits he.acyclic hsound hroom' hsize front.length
    obtain ⟨hinputs, -⟩ := Layout.packBatch_spec he.fits
      (by rw [Buffer.size_zeros, Nat.zero_add]) (by rw [Buffer.size_zeros, Nat.zero_add]) hpack
    have hlast : ((front ++ [last]).map (·.inputs))[front.length]? = some last.inputs := by simp
    replace hinputs := hinputs.view hlast
    rw [Nat.zero_add] at hinputs
    rw [← hwork, hrun, htrained.value n hn i hi]
    exact Graph.value_congr (Graph.agree_setting (fun _ _ _ _ => rfl) hinputs) he.acyclic hn hi

/-! ## Sums -/

section Exact

variable [Scalar.Exact α]

attribute [local instance] Scalar.Exact.commRing

/-- A batch that is accepted returns the sum of the losses of its samples, and leaves the sums of
their slopes, whatever was there before. -/
theorem Sound.accumulate_sums (he : e.Sound g s options) {batch : List (Sample α)} {x : α}
    (hacc : e.accumulate h batch = ⟨.ok x, e', h'⟩) :
    x = (batch.map (Graph.lossOf (e.live h) options.loss he.acyclic)).sum ∧
      ∃ grads, e'.gradients? = some grads ∧ grads.size = e.layout.paramLen ∧
        ∀ o, (g.tensor? o).isSome = true → ∀ i < g.extent o,
          grads.getD ((e.layout.slotOf o).flat + i) 0 = (batch.map fun sample =>
            Graph.slopeOf (e.live h) options.loss he.acyclic sample o i).sum := by
  obtain ⟨k, inputs, targets, hk, hpack, hloss, hgrads⟩ := accumulate_spec hacc
  have hsound := he.training k hk
  have hroom := he.room_training hk
  have hgt := Graph.trainable_of_reverse he.schedule he.shape hsound.backward
  have hzeros : (Buffer.zeros k.grads.size : Buffer α).size = e.layout.paramLen :=
    (Buffer.size_zeros _).trans hsound.grads
  rw [hroom.ensureTraining_eq] at hloss hgrads
  obtain ⟨hlosses, hslopes⟩ := runSamples_spec (e.store.view h) inputs targets
    (w := { banks := e.banks, grads := .zeros k.grads.size, loss := 0 })
    he.schedule he.shape he.fits he.acyclic hsound hroom hzeros batch.length
  obtain ⟨-, hsize⟩ := room_runSamples (e.store.view h) inputs targets
    (w := { banks := e.banks, grads := .zeros k.grads.size, loss := 0 })
    he.schedule he.shape he.fits hsound hroom hzeros batch.length
  have hsample := fun j i sample (hi : batch[i]? = some sample) =>
    packedLoss_eq (e.store.view h) he.fits he.acyclic hpack options.loss j hi
  refine ⟨?_, _, hgrads, hsize, fun o ho i hi => ?_⟩
  · rw [← hloss, hlosses 0, zero_add]
    refine sum_range_eq_sum_map batch fun i sample hi => ?_
    rw [hsample 0 i sample hi]
    exact Graph.re_sampleLoss_eq_lossOf _
  · have hslope := hslopes _ (he.fits.flat_add_lt ho hi)
    rw [Buffer.view_zeros, zero_add, Buffer.view, Nat.zero_add] at hslope
    rw [hslope]
    refine sum_range_eq_sum_map batch fun n sample hn => ?_
    rw [hsample _ n sample hn]
    exact eps_sampleLoss_unitAt he.fits he.acyclic hgt _ _ _ _ ho hi

/-- What a batch that is accepted returns, and what it leaves: the values of the last sample, and
the sums of the slopes beside the optimizer as it was. -/
structure Accepted (loss : Loss) (hg : g.Acyclic) (e : Engine α) (h : Host α)
    (batch : List (Sample α)) (x : α) (e' : Engine α) : Prop where
  ne_nil : batch ≠ []
  layout_eq : e'.layout = e.layout
  store_eq : e'.store = e.store
  loss_eq : x = (batch.map (Graph.lossOf (e.live h) loss hg)).sum
  value_eq : ∀ last, batch.getLast? = some last → ∀ n < g.numNodes, ∀ i < g.width n,
    e'.banks.value.view (e'.layout.dataAt n) i =
      Graph.value (g.setting (e.live h) (vectorOf last.inputs)) hg n i
  training : ∀ k, e.training = some k → ∃ k', e'.training = some k' ∧
    k'.optimizer = k.optimizer ∧ ∀ o, (g.tensor? o).isSome = true → ∀ i < g.extent o,
      k'.grads.getD ((e.layout.slotOf o).flat + i) 0 =
        (batch.map fun sample => Graph.slopeOf (e.live h) loss hg sample o i).sum

theorem Sound.accepted_of_accumulate (he : e.Sound g s options) {batch : List (Sample α)} {x : α}
    (hacc : e.accumulate h batch = ⟨.ok x, e', h'⟩) :
    Accepted options.loss he.acyclic e h batch x e' := by
  have hbatched := batched_accumulate e h batch
  obtain ⟨hlayout, hstore, -⟩ := hbatched.fields_eq
  have hoptimizer := e.optimizer?_accumulate h batch
  rw [hacc] at hbatched hlayout hstore hoptimizer
  obtain ⟨hloss, grads, hgrads, -, hslopes⟩ := he.accumulate_sums hacc
  refine
    { ne_nil := by
        cases hbatched with
        | accepted _ hbatch => exact List.isEmpty_eq_false_iff.1 hbatch
      layout_eq := hlayout
      store_eq := hstore
      loss_eq := hloss
      value_eq := fun last hlast n hn i hi => ?_
      training := fun k hk => ?_ }
  · obtain ⟨front, rfl⟩ := List.getLast?_eq_some_iff.1 hlast
    exact he.value_of_accumulate hacc hn hi
  · obtain ⟨k', hk', rfl⟩ := Option.map_eq_some_iff.1 hgrads
    rw [optimizer?, optimizer?, hk', hk] at hoptimizer
    exact ⟨k', hk', Option.some.inj hoptimizer, hslopes⟩

/-- The sums have the same terms in all states with the same parameters. -/
theorem Hosted.exists_terms (hx : Hosted g options true e h) :
    ∃ (loss : Sample α → α) (slope : Nat → Sample α → α),
      ∀ {e₁ e₁' : Engine α} {h₁ h₁' : Host α} {batch : List (Sample α)} {x : α},
        Hosted g options true e₁ h₁ → e₁.params h₁ = e.params h →
        e₁.accumulate h₁ batch = ⟨.ok x, e₁', h₁'⟩ →
        x = (batch.map loss).sum ∧
          ∃ grads, e₁'.gradients? = some grads ∧ grads.size = e.layout.paramLen ∧
            ∀ k < grads.size, grads.getD k 0 = (batch.map (slope k)).sum := by
  obtain ⟨s, hp⟩ := placed_of_hosted hx
  choose! place hplace using fun k (hk : k < e.layout.paramLen) =>
    (hp.fits.existsUnique_flat hk).exists
  refine ⟨Graph.lossOf (e.live h) options.loss hp.acyclic, fun k sample =>
    Graph.slopeOf (e.live h) options.loss hp.acyclic sample (place k).1 (place k).2, ?_⟩
  intro e₁ e₁' h₁ h₁' batch x hx₁ hparams hacc
  obtain ⟨s₁, hp₁⟩ := placed_of_hosted hx₁
  have hlayout := layout_eq_of_reachable hx.reachable hx₁.reachable
  have hlive : ∀ o, (g.tensor? o).isSome = true → ∀ i < g.extent o,
      e₁.live h₁ o i = e.live h o i :=
    fun o ho i hi => live_eq_of_params_eq hp.fits hlayout hparams ho hi
  obtain ⟨hloss, grads, hgrads, hsize, hslopes⟩ := hp₁.toSound.accumulate_sums hacc
  refine ⟨hloss.trans ?_, grads, hgrads, hlayout ▸ hsize, fun k hk => ?_⟩
  · exact congrArg List.sum (List.map_congr_left fun sample _ => Graph.lossOf_congr hlive)
  · obtain ⟨ho, hi, hflat⟩ := hplace k (by rwa [hsize, hlayout] at hk)
    rw [hlayout] at hslopes
    rw [← hflat, hslopes _ ho _ hi, hflat]
    exact congrArg List.sum (List.map_congr_left fun sample _ => Graph.slopeOf_congr hlive ho hi)

/-- Gradient descent moves every element of the parameters along the gradient of the batch. -/
theorem Hosted.trainStep_sgd (hx : Hosted g options true e h) {lr : α}
    (hlr : options.optimizer = .sgd lr) {batch : List (Sample α)} {x : α}
    (hacc : e.accumulate h batch = ⟨.ok x, e', h⟩) :
    ∃ e'' h'', e.trainStep h batch = ⟨.ok x, e'', h''⟩ ∧
      ∀ grads, e'.gradients? = some grads →
        ∀ o, (g.tensor? o).isSome = true → ∀ i < g.extent o,
          e''.live h'' o i - e.live h o i =
            -(lr * grads.getD ((e.layout.slotOf o).flat + i) 0) := by
  refine ⟨(e'.apply h).engine, (e'.apply h).host, by rw [trainStep_eq, hacc], ?_⟩
  intro grads hgrads o ho i hi
  have hx' : Hosted g options true e' h := by
    have hact := hx.act (.accumulate batch)
    rwa [Engine.act, hacc] at hact
  obtain ⟨hlayout, hstore, -⟩ := (batched_accumulate e h batch).fields_eq
  simp only [hacc] at hlayout hstore
  obtain ⟨s, hp'⟩ := placed_of_hosted hx'
  obtain ⟨k, hk, rfl⟩ := Option.map_eq_some_iff.1 hgrads
  have hrule : k.optimizer.rule = .sgd lr := by
    have hconfig := (config_of_reachable hx'.reachable hk).trans hlr
    cases hr : k.optimizer.rule <;> simp_all [Rule.config]
  rw [hp'.live_apply hk ho hi, hrule, live_congr hlayout hstore, hlayout]
  simp only [Rule.moved]
  ring

/-- **Batches add up.** The loss of two batches together, and every element of their gradient, is
the sum of those of the two, each computed in any state with the same parameters. The samples of a
batch can be put in any order. So gradient descent on `n` copies of a sample moves every element of
the parameters `n` times as far as on the sample alone. -/
theorem batches_add_up {e₁ e₂ : Engine α} {h₁ h₂ : Host α} (he : Hosted g options true e h)
    (he₁ : Hosted g options true e₁ h₁) (he₂ : Hosted g options true e₂ h₂)
    (hparams₁ : e₁.params h₁ = e.params h) (hparams₂ : e₂.params h₂ = e.params h) :
    (∀ front back x₁ x₂ e₁' e₂', e₁.accumulate h₁ front = ⟨.ok x₁, e₁', h₁⟩ →
      e₂.accumulate h₂ back = ⟨.ok x₂, e₂', h₂⟩ →
      ∃ e' grads grads₁ grads₂, e.accumulate h (front ++ back) = ⟨.ok (x₁ + x₂), e', h⟩ ∧
        e'.gradients? = some grads ∧ e₁'.gradients? = some grads₁ ∧
        e₂'.gradients? = some grads₂ ∧ grads₁.size = grads.size ∧ grads₂.size = grads.size ∧
        ∀ k < grads.size, grads.getD k 0 = grads₁.getD k 0 + grads₂.getD k 0) ∧
    (∀ batch other x e₁', batch.Perm other → e₁.accumulate h₁ batch = ⟨.ok x, e₁', h₁⟩ →
      ∃ e', e.accumulate h other = ⟨.ok x, e', h⟩ ∧ e'.gradients? = e₁'.gradients?) ∧
    (∀ lr, options.optimizer = .sgd lr → ∀ sample x e₁' h₁',
      e₁.trainStep h₁ [sample] = ⟨.ok x, e₁', h₁'⟩ → ∀ n, 0 < n →
      ∃ e' h', e.trainStep h (List.replicate n sample) = ⟨.ok (n * x), e', h'⟩ ∧
        ∀ o, (g.tensor? o).isSome = true → ∀ i < g.extent o,
          e'.live h' o i - e.live h o i = n * (e₁'.live h₁' o i - e₁.live h₁ o i)) := by
  obtain ⟨loss, slope, hterms⟩ := he.exists_terms
  refine ⟨?_, ?_, ?_⟩
  · intro front back x₁ x₂ e₁' e₂' hacc₁ hacc₂
    obtain ⟨hne, haccepts₁⟩ := he₁.accepts_of_accumulate (x := x₁) (by rw [hacc₁])
    obtain ⟨-, haccepts₂⟩ := he₂.accepts_of_accumulate (x := x₂) (by rw [hacc₂])
    obtain ⟨x, e', hacc⟩ := he.exists_accumulate (front ++ back) (by simp [hne])
      fun sample hs => (List.mem_append.1 hs).elim (haccepts₁ sample) (haccepts₂ sample)
    obtain ⟨hx, grads, hgrads, hsize, hslopes⟩ := hterms he rfl hacc
    obtain ⟨hx₁, grads₁, hgrads₁, hsize₁, hslopes₁⟩ := hterms he₁ hparams₁ hacc₁
    obtain ⟨hx₂, grads₂, hgrads₂, hsize₂, hslopes₂⟩ := hterms he₂ hparams₂ hacc₂
    refine ⟨e', grads, grads₁, grads₂, ?_, hgrads, hgrads₁, hgrads₂, hsize₁.trans hsize.symm,
      hsize₂.trans hsize.symm, fun k hk => ?_⟩
    · rw [hacc, hx, hx₁, hx₂, List.map_append, List.sum_append]
    · rw [hslopes k hk, hslopes₁ k (by omega), hslopes₂ k (by omega), List.map_append,
        List.sum_append]
  · intro batch other x₁ e₁' hperm hacc₁
    obtain ⟨hne, haccepts⟩ := he₁.accepts_of_accumulate (x := x₁) (by rw [hacc₁])
    obtain ⟨x, e', hacc⟩ := he.exists_accumulate other
      (fun hnil => hne (List.perm_nil.1 (hnil ▸ hperm)))
      fun sample hs => haccepts sample (hperm.mem_iff.2 hs)
    obtain ⟨hx, grads, hgrads, hsize, hslopes⟩ := hterms he rfl hacc
    obtain ⟨hx₁, grads₁, hgrads₁, hsize₁, hslopes₁⟩ := hterms he₁ hparams₁ hacc₁
    refine ⟨e', ?_, ?_⟩
    · rw [hacc, hx, hx₁, (hperm.map loss).sum_eq]
    · rw [hgrads, hgrads₁]
      refine congrArg some (Buffer.ext_view (hsize.trans hsize₁.symm) fun k hk => ?_)
      rw [Buffer.view, Buffer.view, Nat.zero_add, hslopes k hk, hslopes₁ k (by omega),
        (hperm.map (slope k)).sum_eq]
  · intro lr hlr sample x₁ e₁' h₁' hstep n hn
    have hresult : (e₁.accumulate h₁ [sample]).result = .ok x₁ := by
      rw [← result_trainStep, hstep]
    obtain ⟨hne, haccepts⟩ := he₁.accepts_of_accumulate hresult
    obtain ⟨y₁, a₁, hacc₁⟩ := he₁.exists_accumulate [sample] hne haccepts
    obtain ⟨y, a, hacc⟩ := he.exists_accumulate (List.replicate n sample)
      (by simp [hn.ne']) fun other hother => by simp_all [List.eq_of_mem_replicate hother]
    obtain ⟨hx₁, grads₁, hgrads₁, hsize₁, hslopes₁⟩ := hterms he₁ hparams₁ hacc₁
    obtain ⟨hx, grads, hgrads, hsize, hslopes⟩ := hterms he rfl hacc
    obtain ⟨b₁, k₁, hstep₁, hmove₁⟩ := he₁.trainStep_sgd hlr hacc₁
    obtain ⟨b, k, hstep', hmove⟩ := he.trainStep_sgd hlr hacc
    obtain ⟨hy, rfl, rfl⟩ := Outcome.mk.inj (hstep₁.symm.trans hstep)
    obtain rfl := Except.ok.inj hy
    refine ⟨b, k, ?_, fun o ho i hi => ?_⟩
    · rw [hstep', hx, hx₁, List.map_replicate, List.sum_replicate, nsmul_eq_mul, List.map_singleton,
        List.sum_singleton]
    · have hlayout := layout_eq_of_reachable he.reachable he₁.reachable
      obtain ⟨s, hp⟩ := placed_of_hosted he
      have hlt : (e.layout.slotOf o).flat + i < grads.size := hsize ▸ hp.fits.flat_add_lt ho hi
      rw [hmove grads hgrads o ho i hi, hmove₁ grads₁ hgrads₁ o ho i hi, hlayout,
        hslopes _ hlt, hslopes₁ _ (by omega), List.map_replicate, List.sum_replicate,
        nsmul_eq_mul, List.map_singleton, List.sum_singleton]
      ring

end Exact

theorem batches_add_up_chain :
    ∃ (e e₁ e' e'' : Engine ℚ) (h'' : Host ℚ) (grads : Buffer ℚ),
      compile (.chain 0) .chain .chain true = .ok e ∧
      e.accumulate .chain [.chain] = ⟨.ok (9 / 2), e₁, .chain⟩ ∧
      e.accumulate .chain ([.chain] ++ [.chain]) = ⟨.ok (9 / 2 + 9 / 2), e', .chain⟩ ∧
      e'.gradients? = some grads ∧ grads.getD 0 0 = 15 + 15 ∧
      e.trainStep .chain (.replicate 3 .chain) = ⟨.ok (3 * (9 / 2)), e'', h''⟩ ∧
      e''.live h'' (.weight 0) 0 - e.live .chain (.weight 0) 0 = 3 * (-15) := by
  obtain ⟨e, hc, hrun⟩ := exists_eq_ok (x := compile (.chain 0) .chain .chain true)
    (f := fun e =>
      let o := e.accumulate .chain [.chain]
      let again := o.engine.accumulate .chain [.chain]
      let stepped := e.trainStep .chain [.chain]
      ([o.result.toOption.map id, again.result.toOption.map id, stepped.result.toOption.map id,
        some (stepped.engine.live stepped.host (.weight 0) 0 - e.live .chain (.weight 0) 0)],
        o.engine.gradients?, again.engine.gradients?))
    (c := ([some (9 / 2), some (9 / 2), some (9 / 2), some (-15)], some #[15, 3], some #[15, 3]))
    (by decide +kernel)
  simp only [Prod.mk.injEq, List.cons.injEq, Option.some.injEq, and_true] at hrun
  obtain ⟨⟨hfirst, hagain, hstep, hmove⟩, hgrads₁, hgrads₂⟩ := hrun
  obtain ⟨x, hfirst, rfl⟩ := exists_eq_ok hfirst
  obtain ⟨y, hagain, rfl⟩ := exists_eq_ok hagain
  obtain ⟨z, hstep, rfl⟩ := exists_eq_ok hstep
  have he : Hosted (.chain 0) .chain true e .chain := .compile twins_chain.hosted hc
  replace hfirst := accumulate_eq_ok hfirst
  replace hagain := accumulate_eq_ok hagain
  have he₁ : Hosted (.chain 0) .chain true (e.accumulate .chain [.chain]).engine .chain := by
    have hact := he.act (.accumulate [.chain])
    rwa [Engine.act, hfirst] at hact
  have hparams : (e.accumulate .chain [.chain]).engine.params .chain = e.params .chain := by
    obtain ⟨hlayout, hstore, -⟩ := (batched_accumulate e .chain [.chain]).fields_eq
    rw [params, params, hlayout, hstore]
  obtain ⟨hadd, -, hcopies⟩ := batches_add_up he he he₁ rfl hparams
  obtain ⟨e', grads, grads₁, grads₂, hsum, hgrads, hg₁, hg₂, hsize, -, hslopes⟩ :=
    hadd _ _ _ _ _ _ hfirst hagain
  obtain ⟨e'', h'', hcopied, hmoved⟩ := hcopies 1 rfl .chain (9 / 2)
    (e.trainStep .chain [.chain]).engine (e.trainStep .chain [.chain]).host
    (by rw [← hstep]) 3 (by decide)
  obtain rfl := Option.some.inj (hg₁.symm.trans hgrads₁)
  obtain rfl := Option.some.inj (hg₂.symm.trans hgrads₂)
  refine ⟨e, _, e', e'', h'', grads, hc, hfirst, hsum, hgrads, ?_, hcopied, ?_⟩
  · exact hslopes 0 (hsize ▸ Nat.zero_lt_two)
  · rw [hmoved _ (by decide) 0 (by decide), hmove]
    rfl

end Engine

end GraphTape
