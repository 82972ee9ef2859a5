import Mathlib.Algebra.BigOperators.Ring.Finset
import Mathlib.Algebra.Order.Field.Rat
import GraphTape.Proofs.Engine.Forward
import GraphTape.Proofs.Graph.Gradient

/-!
# Training computes gradients

What the training tapes of an engine compute, in rounded and in exact arithmetic.

* `Engine.training_refines_backpropagation`: the tapes refine back propagation, term by term and
  in its order of terms, from any contents of the regions.
* `Engine.accumulate_computes_gradient`: in exact arithmetic, the accumulated gradients of a batch
  are the derivatives of its loss in the elements of the parameters.
-/

namespace GraphTape

variable {α : Type} [Scalar α]

omit [Scalar α] in
/-- Every element of a parameter has its place in the flat vector. -/
theorem Layout.Fits.flat_add_lt {g : Graph α} {l : Layout} (hl : l.Fits g) {o : Owner}
    (ho : (g.tensor? o).isSome = true) {i : Nat} (hi : i < g.extent o) :
    (l.slotOf o).flat + i < l.paramLen := by
  have hle := hl.flat_le o ho
  rw [hl.len_eq ho] at hle
  omega

omit [Scalar α] in
/-- Every element of the flat vector belongs to one element of one parameter. -/
theorem Layout.Fits.existsUnique_flat {g : Graph α} {l : Layout} (hl : l.Fits g) {k : Nat}
    (hk : k < l.paramLen) :
    ∃! p : Owner × Nat, (g.tensor? p.1).isSome = true ∧ p.2 < g.extent p.1 ∧
      (l.slotOf p.1).flat + p.2 = k := by
  obtain ⟨o, ho, hle, hlt⟩ := hl.flat_cover k hk
  rw [hl.len_eq ho] at hlt
  refine ⟨(o, k - (l.slotOf o).flat), ⟨ho, by simp only; omega, by simp only; omega⟩, ?_⟩
  rintro ⟨o', i'⟩ ⟨ho', hi', hk'⟩
  simp only at ho' hi' hk'
  by_cases heq : o' = o
  · subst heq
    rw [Prod.mk.injEq]
    exact ⟨rfl, by omega⟩
  · have happart := hl.flat_disjoint o' o ho' ho heq
    rw [hl.len_eq ho, hl.len_eq ho'] at happart
    omega

/-- The direction in which the parameter element at one flat index grows, and no other. -/
def Layout.unitAt (l : Layout) (k : Nat) (o : Owner) (i : Nat) : α :=
  if (l.slotOf o).flat + i = k then 1 else 0

namespace Engine

variable {g : Graph α} {s : Schedule} {options : Options α} {e e' : Engine α} {h h' : Host α}

/-- **Training refines back propagation.** From any contents of the banks and of the gradients,
the two training tapes leave the error of every node with incoming edges, add one product to every
gradient element of a weight and one error to every gradient element of a bias, and add the losses
of the output nodes in the order in which they settle. Every gradient element belongs to one
element of one parameter, so none is added to twice, and there are no others. -/
theorem training_refines_backpropagation {k : Training α}
    (hc : Engine.compile g h options true = .ok e) (hk : e.training = some k) :
    ∃ hg : g.Acyclic, Linearizes (Function.swap g.Feeds) g.numNodes g.settle.1 ∧
      (∀ j < e.layout.paramLen, ∃! p : Owner × Nat, (g.tensor? p.1).isSome = true ∧
        p.2 < g.extent p.1 ∧ (e.layout.slotOf p.1).flat + p.2 = j) ∧
      ∀ (env : Env α) (w : Work α), w.banks.Room e.layout .training →
        w.grads.size = e.layout.paramLen →
        let σ := e.layout.setting g env
        let v := Graph.value σ hg
        let δ := Graph.delta σ options.loss (e.layout.targets env) hg
        let w' := Tape.run env k.backward (Tape.run env k.forward w)
        (∀ n < g.numNodes, g.isSource n = false → ∀ i < g.width n,
          w'.banks.error.view (e.layout.dataAt n) i = δ n i ∧
          ∃ derivative, (g.activation n).derivative? = some derivative ∧
            δ n i =
              Scalar.total (Graph.errorTerms σ options.loss (e.layout.targets env) hg δ n i) *
                derivative (Graph.pre σ hg n i)) ∧
        w'.grads.size = w.grads.size ∧
        (∀ f < g.numEdges, ∀ r < g.width (g.src f), ∀ c < g.width (g.dst f),
          w'.grads.view (e.layout.slotOf (.weight f)).flat (r * g.width (g.dst f) + c) =
            w.grads.view (e.layout.slotOf (.weight f)).flat (r * g.width (g.dst f) + c) +
              v (g.src f) r * δ (g.dst f) c) ∧
        (∀ n, (g.bias? n).isSome = true → ∀ i < g.width n,
          w'.grads.view (e.layout.slotOf (.bias n)).flat i =
            w.grads.view (e.layout.slotOf (.bias n)).flat i + δ n i) ∧
        (∀ n < g.numNodes, ∀ i < g.width n,
          w'.banks.value.view (e.layout.dataAt n) i = v n i ∧
          w'.banks.z.view (e.layout.dataAt n) i = Graph.pre σ hg n i) ∧
        w'.loss = g.settle.1.foldl (g.addLoss options.loss v (e.layout.targets env)) w.loss := by
  obtain ⟨s, he⟩ := sound_of_compile hc
  have hsound := he.training k hk
  have hgt := Graph.trainable_of_reverse he.schedule he.shape hsound.backward
  refine ⟨he.acyclic, Graph.linearizes_settle (Tape.reverse_spec hsound.backward).2.1,
    fun j hj => he.fits.existsUnique_flat hj, fun env w hroom hgrads => ?_⟩
  intro σ v δ w'
  have htrained : Trained env e.layout options.loss he.acyclic w w' := by
    show Trained env e.layout options.loss he.acyclic w
      (Tape.run env k.backward (Tape.run env k.forward w))
    rw [hsound.forward]
    exact trained_run he.schedule he.shape he.fits he.acyclic hsound.backward env hroom hgrads
  refine ⟨fun n hn hsource i hi => ⟨htrained.error n hn hsource i hi, ?_⟩, htrained.grads_size,
    fun f hf r hr c hc => ?_, fun n hbias i hi => htrained.grads (.bias n) hbias i hi,
    fun n hn i hi => ⟨htrained.value n hn i hi, htrained.z n hn i hi⟩, htrained.loss_eq⟩
  · obtain ⟨derivative, hd⟩ := Option.isSome_iff_exists.1 (hgt.derivative n hn hsource)
    refine ⟨derivative, ?_, Graph.delta_eq_mul he.acyclic hd i⟩
    rwa [Graph.derivative?, hsource, if_neg Bool.false_ne_true] at hd
  · rw [htrained.grads _ (Graph.isSome_tensor?_weight.2 hf) _ (Graph.entry_lt_extent hr hc),
      Graph.contribution_entry _ _ hc]

theorem training_refines_backpropagation_chain :
    ∃ (e : Engine ℚ) (k : Training ℚ) (hg : (Graph.chain 0).Acyclic),
      Engine.compile (.chain 0) .chain .chain true = .ok e ∧ e.training = some k ∧
      let env : Env ℚ :=
        { params := e.store.view .chain, input := fun _ => 5, target := fun _ => 10 }
      Graph.value (e.layout.setting (.chain 0) env) hg 1 0 = 13 ∧
        Graph.delta (e.layout.setting (.chain 0) env) .halfSquare (e.layout.targets env) hg 1 0 =
          3 := by
  obtain ⟨e, hc, hrun⟩ := exists_eq_ok (x := Engine.compile (.chain 0) .chain .chain true)
    (f := fun e => e.training.map fun k =>
      let env : Env ℚ :=
        { params := e.store.view .chain, input := fun _ => 5, target := fun _ => 10 }
      let w := Tape.run env k.backward (Tape.run env k.forward
        { banks := .training e.layout, grads := .zeros e.layout.paramLen, loss := 0 })
      (w.banks.value.view (e.layout.dataAt 1) 0, w.banks.error.view (e.layout.dataAt 1) 0))
    (c := some (13, 3)) (by decide +kernel)
  obtain ⟨k, hk, hrun⟩ := Option.map_eq_some_iff.1 hrun
  obtain ⟨hvalue, herror⟩ := Prod.mk.inj hrun
  obtain ⟨hg, -, -, htapes⟩ := training_refines_backpropagation hc hk
  obtain ⟨herrors, -, -, -, hvalues, -⟩ := htapes
    { params := e.store.view .chain, input := fun _ => 5, target := fun _ => 10 }
    { banks := .training e.layout, grads := .zeros e.layout.paramLen, loss := 0 }
    (Banks.room_training e.layout) (Buffer.size_zeros _)
  refine ⟨e, k, hg, hc, hk, ?_, ?_⟩
  · exact (hvalues 1 (by decide) 0 (by decide)).1.symm.trans hvalue
  · exact (herrors 1 (by decide) (by decide) 0 (by decide)).1.symm.trans herror

/-- What a batch that is accepted leaves. -/
theorem accumulate_spec {batch : List (Sample α)} {x : α}
    (hacc : e.accumulate h batch = ⟨.ok x, e', h'⟩) :
    ∃ k inputs targets, e.training = some k ∧
      e.layout.packBatch 0 batch (.zeros (batch.length * e.layout.inputLen))
        (.zeros (batch.length * e.layout.targetLen)) = (none, inputs, targets) ∧
      let work := runSamples k e.layout (e.store.view h) inputs targets batch.length
        { banks := e.banks.ensureTraining e.layout, grads := .zeros k.grads.size, loss := 0 }
      work.loss = x ∧ e'.gradients? = some work.grads := by
  rw [accumulate, runBatch] at hacc
  cases hk : e.training with
  | none => simp [hk] at hacc
  | some k =>
    simp only [hk] at hacc
    split at hacc
    · simp at hacc
    · split at hacc
      · simp at hacc
      · rename_i inputs targets hpack
        refine ⟨k, inputs, targets, rfl, hpack, ?_, ?_⟩
        · exact Except.ok.inj (congrArg Outcome.result hacc)
        · obtain rfl : _ = e' := congrArg Outcome.engine hacc
          rfl

/-! ## Batches over dual numbers -/

/-- The loss of a batch over dual numbers, along the direction in which the parameter element at
flat index `k` grows. -/
def dualLoss (e : Engine α) (h : Host α) (loss : Loss) (hg : g.Acyclic)
    (batch : List (Sample α)) (k : Nat) : Dual α :=
  Scalar.total (batch.map fun sample =>
    Graph.sampleLoss (g.dualSetting (e.live h) (e.layout.unitAt k) (vectorOf sample.inputs)) loss
      (vectorOf sample.targets) hg)

variable {l : Layout} {k : Training α} {params : Slot → Nat → α} {inputs targets : Buffer α}
  {w : Work α}

/-- The loss of the `i`th sample of a packed batch, along the direction of a flat index. -/
def packedLoss (g : Graph α) (l : Layout) (params : Slot → Nat → α) (inputs targets : Buffer α)
    (loss : Loss) (hg : g.Acyclic) (j i : Nat) : Dual α :=
  Graph.sampleLoss (g.dualSetting (fun o => params (l.slotOf o)) (l.unitAt j)
      fun n c => (sampleEnv l params inputs targets i).input (l.inputAt n + c))
    loss (l.targets (sampleEnv l params inputs targets i)) hg

variable (params) in
/-- In a batch that was packed, the loss of a packed sample is that of the sample. -/
theorem packedLoss_eq (hl : l.Fits g) (hg : g.Acyclic) {batch : List (Sample α)}
    (hpack : l.packBatch 0 batch (.zeros (batch.length * l.inputLen))
      (.zeros (batch.length * l.targetLen)) = (none, inputs, targets)) (loss : Loss) (j : Nat)
    {i : Nat} {sample : Sample α} (hi : batch[i]? = some sample) :
    packedLoss g l params inputs targets loss hg j i =
      Graph.sampleLoss (g.dualSetting (fun o => params (l.slotOf o)) (l.unitAt j)
        (vectorOf sample.inputs)) loss (vectorOf sample.targets) hg := by
  obtain ⟨hinputs, htargets⟩ := Layout.packBatch_spec hl (by rw [Buffer.size_zeros, Nat.zero_add])
    (by rw [Buffer.size_zeros, Nat.zero_add]) hpack
  replace hinputs := hinputs.view (j := i) (by rw [List.getElem?_map, hi, Option.map_some])
  replace htargets := htargets.view (j := i) (by rw [List.getElem?_map, hi, Option.map_some])
  rw [Nat.zero_add] at hinputs htargets
  exact Graph.sampleLoss_congr loss hg (Graph.agree_dualSetting hinputs) htargets

/-! ## Batches in exact arithmetic -/

section Exact

variable [Scalar.Exact α]

attribute [local instance] Scalar.Exact.commRing

/-- Along the direction of one parameter element the contribution of this element counts. -/
theorem eps_sampleLoss_unitAt (hl : l.Fits g) (hg : g.Acyclic) (hgt : g.Trainable) (loss : Loss)
    (param : Owner → Nat → α) (input target : Nat → Nat → α) {o : Owner}
    (ho : (g.tensor? o).isSome = true) {i : Nat} (hi : i < g.extent o) :
    (Graph.sampleLoss (g.dualSetting param (l.unitAt ((l.slotOf o).flat + i)) input) loss target
        hg).eps =
      g.contribution (Graph.value (g.setting param input) hg)
        (Graph.delta (g.setting param input) loss target hg) o i := by
  obtain ⟨p, -, hunique⟩ := hl.existsUnique_flat (hl.flat_add_lt ho hi)
  have hp : (o, i) = p := hunique (o, i) ⟨ho, hi, rfl⟩
  have hother : ∀ o' i', (g.tensor? o').isSome = true → i' < g.extent o' → (o', i') ≠ (o, i) →
      l.unitAt ((l.slotOf o).flat + i) o' i' = (0 : α) := by
    intro o' i' ho' hi' hne
    rw [Layout.unitAt, if_neg]
    exact fun hflat => hne ((hunique (o', i') ⟨ho', hi', hflat⟩).trans hp.symm)
  rw [Graph.eps_sampleLoss hg hgt, Graph.ownerSum_eq_single ho, Graph.weighed,
    Finset.sum_eq_single i, Layout.unitAt, if_pos rfl, one_mul]
  · intro i' hi' hne
    rw [hother o i' ho (Finset.mem_range.1 hi') fun heq => hne (Prod.mk.inj heq).2, zero_mul]
  · exact fun hmem => absurd (Finset.mem_range.2 hi) hmem
  · intro o' ho' hne
    refine Finset.sum_eq_zero fun i' hi' => ?_
    rw [hother o' i' ho' (Finset.mem_range.1 hi') fun heq => hne (Prod.mk.inj heq).1, zero_mul]

theorem eps_packedLoss (hl : l.Fits g) (hg : g.Acyclic) (hgt : g.Trainable) (loss : Loss)
    {o : Owner} (ho : (g.tensor? o).isSome = true) {i : Nat} (hi : i < g.extent o) (n : Nat) :
    (packedLoss g l params inputs targets loss hg ((l.slotOf o).flat + i) n).eps =
      g.contribution (Graph.value (l.setting g (sampleEnv l params inputs targets n)) hg)
        (Graph.delta (l.setting g (sampleEnv l params inputs targets n)) loss
          (l.targets (sampleEnv l params inputs targets n)) hg) o i :=
  eps_sampleLoss_unitAt hl hg hgt loss _ _ _ ho hi

variable (params inputs targets) in
/-- Every sample adds its loss, and the derivatives of its loss. -/
theorem runSamples_spec (hs : g.schedule = .ok s) (hshape : g.shapeFault? = none) (hl : l.Fits g)
    (hg : g.Acyclic) (hk : k.Sound g s l options) (hroom : w.banks.Room l .training)
    (hgrads : w.grads.size = l.paramLen) (n : Nat) :
    (∀ j, (runSamples k l params inputs targets n w).loss = w.loss +
      ∑ i ∈ Finset.range n, (packedLoss g l params inputs targets options.loss hg j i).re) ∧
    ∀ j < l.paramLen, (runSamples k l params inputs targets n w).grads.view 0 j =
      w.grads.view 0 j +
        ∑ i ∈ Finset.range n, (packedLoss g l params inputs targets options.loss hg j i).eps := by
  induction n with
  | zero =>
    refine ⟨fun j => ?_, fun j _ => ?_⟩
    · rw [Finset.sum_range_zero, add_zero]
      rfl
    · rw [Finset.sum_range_zero, add_zero]
      rfl
  | succ n ih =>
    obtain ⟨hroom', hgrads'⟩ := room_runSamples params inputs targets hs hshape hl hk hroom hgrads n
    obtain ⟨s', htrained, hrun⟩ :=
      runSample_spec params inputs targets hs hshape hl hg hk hroom' hgrads' n
    have hgt := Graph.trainable_of_reverse hs hshape hk.backward
    have hsettle := Graph.linearizes_settle (Tape.reverse_spec hk.backward).2.1
    rw [runSamples_succ, hrun]
    refine ⟨fun j => ?_, fun j hj => ?_⟩
    · rw [Finset.sum_range_succ, ← add_assoc, ← ih.1 j]
      refine congrArg (_ + ·) ?_
      rw [htrained.loss_eq, Graph.foldl_addLoss hsettle.nodup hsettle.mem_iff, zero_add,
        packedLoss, Graph.re_sampleLoss]
      rfl
    · obtain ⟨⟨o, i⟩, ⟨ho, hi, hflat⟩, -⟩ := hl.existsUnique_flat hj
      simp only at ho hi hflat
      have hview : ∀ b : Buffer α, b.view 0 j = b.view (l.slotOf o).flat i := fun b => by
        rw [← hflat, Buffer.view, Buffer.view, Nat.zero_add]
      rw [Finset.sum_range_succ, ← add_assoc, ← ih.2 j hj, hview, hview, ← hflat,
        eps_packedLoss hl hg hgt _ ho hi]
      exact htrained.grads o ho i hi

theorem sum_range_eq_sum_map {β : Type} (xs : List β) {f : Nat → α} {f' : β → α}
    (h : ∀ i x, xs[i]? = some x → f i = f' x) :
    ∑ i ∈ Finset.range xs.length, f i = (xs.map f').sum := by
  induction xs generalizing f with
  | nil => rfl
  | cons x xs ih =>
    rw [List.length_cons, Finset.sum_range_succ', List.map_cons, List.sum_cons,
      ih (f := fun i => f (i + 1)) fun i y hy => h (i + 1) y hy, h 0 x rfl, add_comm]

/-- **Training computes the gradient.** In exact arithmetic, whatever the live parameters are and
whatever calls came before, a batch that is accepted leaves the derivative of its loss in the
parameter element at every flat index: the second part of its loss over dual numbers, of which
the first part is the loss that is returned. -/
theorem accumulate_computes_gradient {train : Bool} (he : Reachable g options train e)
    {batch : List (Sample α)} {x : α} (hacc : e.accumulate h batch = ⟨.ok x, e', h'⟩) :
    ∃ (hg : g.Acyclic) (grads : Buffer α), e'.gradients? = some grads ∧
      grads.size = e.layout.paramLen ∧ ∀ k, (e.dualLoss h options.loss hg batch k).re = x ∧
        (k < e.layout.paramLen →
          grads.view 0 k = (e.dualLoss h options.loss hg batch k).eps) := by
  obtain ⟨s, he⟩ := sound_of_reachable he
  obtain ⟨k, inputs, targets, hk, hpack, hloss, hgrads⟩ := accumulate_spec hacc
  have hsound := he.training k hk
  have hroom := he.room_training hk
  have hzeros : (Buffer.zeros k.grads.size : Buffer α).size = e.layout.paramLen :=
    (Buffer.size_zeros _).trans hsound.grads
  rw [hroom.ensureTraining_eq] at hloss hgrads
  obtain ⟨hlosses, hslopes⟩ := runSamples_spec (e.store.view h) inputs targets
    (w := { banks := e.banks, grads := .zeros k.grads.size, loss := 0 })
    he.schedule he.shape he.fits he.acyclic hsound hroom hzeros batch.length
  obtain ⟨-, hsize⟩ := room_runSamples (e.store.view h) inputs targets
    (w := { banks := e.banks, grads := .zeros k.grads.size, loss := 0 })
    he.schedule he.shape he.fits hsound hroom hzeros batch.length
  have hsample := fun j i sample (hi : batch[i]? = some sample) =>
    packedLoss_eq (e.store.view h) he.fits he.acyclic hpack options.loss j hi
  refine ⟨he.acyclic, _, hgrads, hsize, fun j => ⟨?_, fun hj => ?_⟩⟩
  · rw [← hloss, hlosses j, zero_add, dualLoss, Dual.re_total, Scalar.total_eq, List.map_map]
    refine (sum_range_eq_sum_map batch fun i sample hi => ?_).symm
    rw [hsample j i sample hi]
    rfl
  · rw [hslopes j hj, Buffer.view_zeros, zero_add, dualLoss, Dual.eps_total, Scalar.total_eq,
      List.map_map]
    refine sum_range_eq_sum_map batch fun i sample hi => ?_
    rw [hsample j i sample hi]
    rfl

end Exact

theorem accumulate_computes_gradient_chain :
    ∃ (e e' : Engine ℚ) (h' : Host ℚ) (hg : (Graph.chain 0).Acyclic),
      Engine.compile (.chain 0) .chain .chain true = .ok e ∧
      e.accumulate .chain [.chain] = ⟨.ok (9 / 2), e', h'⟩ ∧
      e.dualLoss .chain .halfSquare hg [.chain] 0 = ⟨9 / 2, 15⟩ ∧
      e.dualLoss .chain .halfSquare hg [.chain] 1 = ⟨9 / 2, 3⟩ := by
  obtain ⟨e, hc, hrun⟩ := exists_eq_ok (x := Engine.compile (.chain 0) .chain .chain true)
    (f := fun e => (e.layout.paramLen, (e.accumulate .chain [.chain]).result.toOption,
      (e.accumulate .chain [.chain]).engine.gradients?))
    (c := (2, some (9 / 2), some #[15, 3])) (by decide +kernel)
  obtain ⟨hlen, hrun⟩ := Prod.mk.inj hrun
  obtain ⟨hresult, hgradients⟩ := Prod.mk.inj hrun
  rcases hacc : e.accumulate .chain [.chain] with ⟨result, e', h'⟩
  rw [hacc] at hresult hgradients
  cases result with
  | error fault => simp [Except.toOption] at hresult
  | ok x =>
    obtain rfl : x = 9 / 2 := Option.some.inj hresult
    obtain ⟨hg, grads, hgrads, -, hslopes⟩ := accumulate_computes_gradient (.compile hc) hacc
    obtain rfl := Option.some.inj (hgrads.symm.trans hgradients)
    refine ⟨e, e', h', hg, hc, hacc, ?_, ?_⟩
    · exact Dual.ext (hslopes 0).1 ((hslopes 0).2 (by omega)).symm
    · exact Dual.ext (hslopes 1).1 ((hslopes 1).2 (by omega)).symm

end Engine

end GraphTape
