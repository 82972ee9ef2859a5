import Mathlib.Algebra.BigOperators.Ring.Finset
import Mathlib.Algebra.Order.Field.Rat
import GraphTape.Proofs.Engine.Renumber
import GraphTape.Proofs.Engine.Workers
import GraphTape.Proofs.Memory.Offsets

/-!
# Renumbering changes names alone

Two engines are compiled next to the same host, one of them for a graph under new ids, and get the
same calls, each under its own ids. Their offsets, their tapes and the orders of their sums are
different. What they hold for a node or a parameter is the same before the first call, and remains
the same with every call: an evaluation and a batch of samples leave what the graph means, which
does not depend on ids, and an update moves an element by what is held for this element.

* `Engine.Mirrors`: the invariant, which is about single elements.
* `Engine.Mirrors.act`, `Engine.Mirrors.run`: calls keep it.
* `Engine.Mirrors.of_compile`: compilation establishes it.
* `Engine.ReadsAs`: what is read off the engines and hosts.
* `Engine.renumbering_changes_names`: the result for all calls on a compiled graph.
-/

namespace GraphTape

variable {α : Type} [Scalar α] {ρ : Renumbering} {g g' : Graph α} {s s' : Schedule}
  {options : Options α}

/-- Two trainings have the same rule, and the same gradient and the same state of the optimizer for
every element of a parameter. -/
structure Training.Mirrors (ρ : Renumbering) (g : Graph α) (l l' : Layout) (k k' : Training α) :
    Prop where
  rule_eq : k'.optimizer.rule = k.optimizer.rule
  grads_eq : ∀ o, (g.tensor? o).isSome = true → ∀ i < g.extent o,
    k'.grads.getD ((l'.slotOf (ρ.owner o)).flat + i) 0 =
      k.grads.getD ((l.slotOf o).flat + i) 0
  planes_eq : ∀ o, (g.tensor? o).isSome = true → ∀ i < g.extent o,
    k'.optimizer.aux.planes l'.paramLen ((l'.slotOf (ρ.owner o)).flat + i) =
      k.optimizer.aux.planes l.paramLen ((l.slotOf o).flat + i)

/-- What is told apart by a reply: the kind of the reply, and a loss. Reports and outputs go by ids
and by the order of ids. -/
def Reply.Mirrors : Reply α → Reply α → Prop
  | .failed _, .failed _ => True
  | .outputs _, .outputs _ => True
  | .manyOutputs _, .manyOutputs _ => True
  | .loss x, .loss y => x = y
  | .done, .done => True
  | _, _ => False

namespace Engine

/-- Two engines with their hosts have the same parameters, host tensors, values, gradients and
optimizer states, each under its own ids. -/
structure Mirrors (ρ : Renumbering) (g : Graph α) (x x' : Engine α × Host α) : Prop where
  live_eq : ∀ o, (g.tensor? o).isSome = true → ∀ i < g.extent o,
    x'.1.live x'.2 (ρ.owner o) i = x.1.live x.2 o i
  host_eq : ∀ o t, g.tensor? o = some t → x'.2.read t = x.2.read t
  value_eq : ∀ n < g.numNodes, ∀ i < g.width n,
    x'.1.banks.value.view (x'.1.layout.dataAt (ρ.node n)) i =
      x.1.banks.value.view (x.1.layout.dataAt n) i
  training : ∃ k k', x.1.training = some k ∧ x'.1.training = some k' ∧
    k.Mirrors ρ g x.1.layout x'.1.layout k'

variable {e e' e₁ e₁' : Engine α} {h h' : Host α}

/-- Samples are evaluated together exactly if each of them has the vectors of the sources. -/
theorem exists_evaluateMany_iff (he : e.Sound g s options) (samples : List (Sample α)) :
    (∃ outputs, e.evaluateMany h samples = .ok outputs) ↔
      ∀ x ∈ samples, g.Covered g.isSource x.inputs := by
  have hgood : ∀ x : Sample α, e.layout.inputFault? x = none ↔ g.Covered g.isSource x.inputs :=
    fun x => Layout.fst_pack_eq_none he.fits he.fits.inputs 0 x.inputs _
  simp only [← hgood]
  constructor
  · rintro ⟨outputs, hok⟩
    have hanswers := he.answers_of_evaluateMany hok
    exact ((List.forall₂_and_left _ _).1 (hanswers.imp fun _ _ ha => ⟨ha.good, ha⟩)).1
  · intro hall
    cases hf : e.evaluateMany h samples with
    | ok outputs => exact ⟨outputs, rfl⟩
    | error fault =>
      obtain ⟨before, bad, after, rfl, -, hbad⟩ := evaluateMany_eq_error_iff.1 hf
      simp [hall bad (by simp)] at hbad

namespace Placed

/-- The parameters are as long as their tensors on the host. -/
theorem size_read (hp : e.Placed g s options h) {o : Owner} {t : Tensor}
    (ht : g.tensor? o = some t) : (h.read t).size = g.extent o :=
  (hp.store.hosted.size o t ht).trans (hp.store.count o t ht)

/-- An update brings the host up to date. -/
theorem current_apply (hp : e.Placed g s options h) {k : Training α} (hk : e.training = some k) :
    (e.apply h).engine.store.Current g (e.apply h).engine.layout (e.apply h).host := by
  have hsound := hp.toSound.training k hk
  obtain ⟨-, -, hplaced⟩ := (hp.optimizer k hk).step_spec hp.store hp.fits hsound.grads
  rw [← hsound.slots] at hplaced
  simp only [Engine.apply, hk, stepOptimizer]
  exact hplaced.toServes.sync.2

/-- An update keeps the values, and leaves the training part with no gradients and with the state of
the optimizer after those that it had. -/
theorem apply_spec (hp : e.Placed g s options h) {k : Training α} (hk : e.training = some k) :
    (e.apply h).result = .ok () ∧ (e.apply h).engine.banks = e.banks ∧
      ∃ k₁, (e.apply h).engine.training = some k₁ ∧
        k₁.optimizer.rule = k.optimizer.rule.next ∧ (∀ j, k₁.grads.getD j 0 = 0) ∧
        ∀ j < e.layout.paramLen, k₁.optimizer.aux.planes e.layout.paramLen j =
          k.optimizer.rule.averaged (k.grads.getD j 0)
            (k.optimizer.aux.planes e.layout.paramLen j) := by
  have hsound := hp.toSound.training k hk
  have hplanes := fun j => (hp.optimizer k hk).planes_step hp.store hp.fits hsound.grads (k := j)
  rw [← hsound.slots] at hplanes
  have hrule := k.optimizer.rule.fst_step k.slots k.grads
    { store := e.store, host := h, aux := k.optimizer.aux }
  simp only [Engine.apply, hk, stepOptimizer]
  exact ⟨trivial, trivial, _, rfl, hrule, Buffer.getD_zeros _, hplanes⟩

end Placed

/-- A batch that is not accepted changes the packing alone. -/
theorem exists_error_of_not_accepts (he : e.Sound g s options) {k : Training α}
    (hk : e.training = some k) {batch : List (Sample α)}
    (hbatch : ¬ (batch ≠ [] ∧ ∀ x ∈ batch, g.Accepts x)) :
    ∃ fault e₁, e.accumulate h batch = ⟨.error fault, e₁, h⟩ ∧ e.Repacked e₁ := by
  have haccepts := exists_accumulate_iff he (by rw [isTrainable, hk]; rfl) h batch
  have hrepacked : ∀ fault, (e.accumulate h batch).result = .error fault →
      (e.accumulate h batch).host = h ∧ e.Repacked (e.accumulate h batch).engine :=
    fun _ => (batched_accumulate e h batch).repacked
  generalize e.accumulate h batch = outcome at haccepts hrepacked
  obtain ⟨result, e₁, h₁⟩ := outcome
  cases result with
  | ok x => exact absurd (haccepts.1 ⟨x, rfl⟩) hbatch
  | error fault =>
    obtain ⟨rfl, hpacking⟩ := hrepacked fault rfl
    exact ⟨fault, e₁, rfl, hpacking⟩

namespace Mirrors

/-- Hosts that hold the live parameters are equal if these are. -/
theorem host_eq_of_current (hr : g.Renumbered ρ g') (hp : e.Placed g s options h)
    (hp' : e'.Placed g' s' options h') (hc : e.store.Current g e.layout h)
    (hc' : e'.store.Current g' e'.layout h')
    (hlive : ∀ o, (g.tensor? o).isSome = true → ∀ i < g.extent o,
      e'.live h' (ρ.owner o) i = e.live h o i) (o : Owner) (t : Tensor)
    (ht : g.tensor? o = some t) : h'.read t = h.read t := by
  have ht' : g'.tensor? (ρ.owner o) = some t := (hr.tensor?_eq o).trans ht
  have ho : (g.tensor? o).isSome = true := Option.isSome_of_eq_some ht
  have hsize := hp'.size_read ht'
  rw [hr.extent_eq ho] at hsize
  refine Buffer.ext_view (hsize.trans (hp.size_read ht).symm) fun i hi => ?_
  rw [hsize] at hi
  rw [← hc o t ht i hi, ← hc' _ t ht' i (by rwa [hr.extent_eq ho])]
  exact hlive o ho i hi

/-- Live parameters are equal if they are those of equal hosts. -/
theorem live_eq_of_current (hr : g.Renumbered ρ g') (hc : e.store.Current g e.layout h)
    (hc' : e'.store.Current g' e'.layout h')
    (hhost : ∀ o t, g.tensor? o = some t → h'.read t = h.read t) (o : Owner)
    (ho : (g.tensor? o).isSome = true) (i : Nat) (hi : i < g.extent o) :
    e'.live h' (ρ.owner o) i = e.live h o i := by
  obtain ⟨t, ht⟩ := Option.isSome_iff_exists.1 ho
  have ht' : g'.tensor? (ρ.owner o) = some t := (hr.tensor?_eq o).trans ht
  rw [live, live, hc o t ht i hi, hc' _ t ht' i (by rwa [hr.extent_eq ho]), hhost o t ht]

/-- Packing does not count. -/
theorem repacked (hm : Mirrors ρ g (e, h) (e', h')) (he : e.Repacked e₁) (he' : e'.Repacked e₁') :
    Mirrors ρ g (e₁, h) (e₁', h') := by
  obtain ⟨-, inputs, targets, heq⟩ := he
  obtain ⟨-, inputs', targets', heq'⟩ := he'
  obtain ⟨k, k', hk, hk', hkm⟩ := hm.training
  rw [heq, heq']
  exact
    { live_eq := hm.live_eq
      host_eq := hm.host_eq
      value_eq := hm.value_eq
      training := ⟨_, _, congrArg (Option.map _) hk, congrArg (Option.map _) hk',
        hkm.rule_eq, hkm.grads_eq, hkm.planes_eq⟩ }

/-! ### One call -/

/-- An update is the same under both kinds of ids. -/
theorem apply (hr : g.Renumbered ρ g') (hp : e.Placed g s options h)
    (hp' : e'.Placed g' s' options h') (hm : Mirrors ρ g (e, h) (e', h')) :
    (e.apply h).result = .ok () ∧ (e'.apply h').result = .ok () ∧
      Mirrors ρ g ((e.apply h).engine, (e.apply h).host)
        ((e'.apply h').engine, (e'.apply h').host) := by
  obtain ⟨k, k', hk, hk', hkm⟩ := hm.training
  obtain ⟨hdone, hbanks, k₁, hk₁, hrule, hgrads, hplanes⟩ := hp.apply_spec hk
  obtain ⟨hdone', hbanks', k₁', hk₁', hrule', hgrads', hplanes'⟩ := hp'.apply_spec hk'
  have hlive : ∀ o, (g.tensor? o).isSome = true → ∀ i < g.extent o,
      (e'.apply h').engine.live (e'.apply h').host (ρ.owner o) i =
        (e.apply h).engine.live (e.apply h).host o i := by
    intro o ho i hi
    obtain ⟨ho', hi'⟩ := hr.entry ho hi
    rw [hp.live_apply hk ho hi, hp'.live_apply hk' ho' hi',
      hm.live_eq o ho i hi, hkm.rule_eq]
    refine Rule.moved_congr _ (hkm.grads_eq o ho i hi) ?_ _
    rw [(hp.toSound.training k hk).grads, (hp'.toSound.training k' hk').grads]
    exact hkm.planes_eq o ho i hi
  have hlayout : (e.apply h).engine.layout = e.layout := e.layout_act h .apply
  have hlayout' : (e'.apply h').engine.layout = e'.layout := e'.layout_act h' .apply
  refine ⟨hdone, hdone',
    { live_eq := hlive
      host_eq := host_eq_of_current hr hp.apply hp'.apply (hp.current_apply hk)
        (hp'.current_apply hk') hlive
      value_eq := ?_
      training := ⟨k₁, k₁', hk₁, hk₁', ?_, fun o ho i hi => ?_, fun o ho i hi => ?_⟩ }⟩
  · simp only [hlayout, hlayout', hbanks, hbanks']
    exact hm.value_eq
  · rw [hrule, hrule', hkm.rule_eq]
  · rw [hgrads, hgrads']
  · obtain ⟨ho', hi'⟩ := hr.entry ho hi
    simp only [hlayout, hlayout']
    rw [hplanes _ (hp.fits.flat_add_lt ho hi), hplanes' _ (hp'.fits.flat_add_lt ho' hi'),
      hkm.rule_eq, hkm.grads_eq o ho i hi, hkm.planes_eq o ho i hi]

theorem sync (hr : g.Renumbered ρ g') (hp : e.Placed g s options h)
    (hp' : e'.Placed g' s' options h') (hm : Mirrors ρ g (e, h) (e', h')) :
    Mirrors ρ g (e, e.sync h) (e', e'.sync h') := by
  have hlive : ∀ o, (g.tensor? o).isSome = true → ∀ i < g.extent o,
      e'.live (e'.sync h') (ρ.owner o) i = e.live (e.sync h) o i := by
    simp only [live, Engine.sync, Store.view_sync]
    exact hm.live_eq
  exact { hm with
    live_eq := hlive
    host_eq := host_eq_of_current hr (hp.act .sync) (hp'.act .sync) hp.store.toServes.sync.2
      hp'.store.toServes.sync.2 hlive }

theorem reload (hr : g.Renumbered ρ g') (hp : e.Placed g s options h)
    (hp' : e'.Placed g' s' options h') (hm : Mirrors ρ g (e, h) (e', h')) :
    Mirrors ρ g (e.reload h, h) (e'.reload h', h') :=
  { hm with
    live_eq := live_eq_of_current hr (hp.store.toServes.reload hp.fits).2
      (hp'.store.toServes.reload hp'.fits).2 hm.host_eq }

section Exact

variable [Scalar.Exact α]

attribute [local instance] Scalar.Exact.commRing

theorem forward (hr : g.Renumbered ρ g') (hp : e.Placed g s options h)
    (hp' : e'.Placed g' s' options h') (hm : Mirrors ρ g (e, h) (e', h')) (x : Sample α) :
    (Reply.of .outputs (e.forward h x).1).Mirrors (.of .outputs (e'.forward h' (ρ.sample x)).1) ∧
      Mirrors ρ g ((e.forward h x).2, h) ((e'.forward h' (ρ.sample x)).2, h') := by
  have hpack := Layout.fst_pack_eq_none hp.fits hp.fits.inputs 0 x.inputs e.input
  have hpack' := Layout.fst_pack_eq_none hp'.fits hp'.fits.inputs 0 (ρ.sample x).inputs e'.input
  rw [hr.covered_inputs] at hpack'
  by_cases hx : g.Covered g.isSource x.inputs
  · obtain ⟨outputs, e₁, hf⟩ := forward_of_none (h := h) (hpack.2 hx)
    obtain ⟨outputs', e₁', hf'⟩ := forward_of_none (h := h') (hpack'.2 hx)
    obtain ⟨input, banks, rfl, -, hvalue⟩ := hp.toSound.forward_spec hf
    obtain ⟨input', banks', rfl, -, hvalue'⟩ := hp'.toSound.forward_spec hf'
    rw [hf, hf']
    refine ⟨trivial, { hm with value_eq := fun n hn i hi => ?_ }⟩
    rw [hvalue n hn i hi, hvalue' _ (hr.lt_numNodes_iff.2 hn) i (by rwa [hr.width_eq]),
      hr.value_sample _ hp.acyclic]
    exact Graph.value_congr (Graph.agree_setting hm.live_eq fun _ _ _ _ _ => rfl) _ hn hi
  · obtain ⟨fault, hfault⟩ := Option.ne_none_iff_exists'.1 (mt hpack.1 hx)
    obtain ⟨fault', hfault'⟩ := Option.ne_none_iff_exists'.1 (mt hpack'.1 hx)
    obtain ⟨input, hf⟩ := forward_of_fault (h := h) hfault
    obtain ⟨input', hf'⟩ := forward_of_fault (h := h') hfault'
    rw [hf, hf']
    exact ⟨trivial, { hm with }⟩

/-- Batches that are accepted have the same loss and leave the same under both kinds of ids. -/
theorem accepted (hr : g.Renumbered ρ g') {hg : g.Acyclic} {hg' : g'.Acyclic}
    {batch : List (Sample α)} {x x' : α} (hm : Mirrors ρ g (e, h) (e', h'))
    (ha : Accepted options.loss hg e h batch x e₁)
    (ha' : Accepted options.loss hg' e' h' (batch.map ρ.sample) x' e₁') :
    x' = x ∧ Mirrors ρ g (e₁, h) (e₁', h') := by
  obtain ⟨k, k', hk, hk', hkm⟩ := hm.training
  obtain ⟨k₁, hk₁, hoptimizer, hslopes⟩ := ha.training k hk
  obtain ⟨k₁', hk₁', hoptimizer', hslopes'⟩ := ha'.training k' hk'
  refine ⟨?_,
    { live_eq := ?_
      host_eq := hm.host_eq
      value_eq := fun n hn i hi => ?_
      training := ⟨k₁, k₁', hk₁, hk₁', ?_, fun o ho i hi => ?_, ?_⟩ }⟩
  · rw [ha.loss_eq, ha'.loss_eq, List.map_map]
    refine congrArg List.sum (List.map_congr_left fun y _ => ?_)
    rw [Function.comp_apply, hr.lossOf_eq _ _ hg]
    exact Graph.lossOf_congr hm.live_eq
  · rw [live_congr ha.layout_eq ha.store_eq, live_congr ha'.layout_eq ha'.store_eq]
    exact hm.live_eq
  · have hlast := List.getLast?_eq_some_getLast ha.ne_nil
    generalize batch.getLast ha.ne_nil = last at hlast
    have hlast' : (batch.map ρ.sample).getLast? = some (ρ.sample last) := by
      rw [List.getLast?_map, hlast, Option.map_some]
    rw [ha.value_eq last hlast n hn i hi,
      ha'.value_eq _ hlast' _ (hr.lt_numNodes_iff.2 hn) i (by rwa [hr.width_eq]),
      hr.value_sample _ hg]
    exact Graph.value_congr (Graph.agree_setting hm.live_eq fun _ _ _ _ _ => rfl) _ hn hi
  · rw [hoptimizer, hoptimizer']
    exact hkm.rule_eq
  · obtain ⟨ho', hi'⟩ := hr.entry ho hi
    simp only [ha.layout_eq, ha'.layout_eq]
    rw [hslopes o ho i hi, hslopes' _ ho' i hi', List.map_map]
    refine congrArg List.sum (List.map_congr_left fun y _ => ?_)
    rw [Function.comp_apply, hr.slopeOf_eq _ _ hg _ _ ho]
    exact Graph.slopeOf_congr hm.live_eq ho hi
  · simp only [ha.layout_eq, ha'.layout_eq, hoptimizer, hoptimizer']
    exact hkm.planes_eq

/-- A batch is accepted under both kinds of ids, with the same loss, or under neither. -/
theorem accumulate (hr : g.Renumbered ρ g') (hp : e.Placed g s options h)
    (hp' : e'.Placed g' s' options h') (hm : Mirrors ρ g (e, h) (e', h'))
    (batch : List (Sample α)) :
    (∃ x e₁ e₁', e.accumulate h batch = ⟨.ok x, e₁, h⟩ ∧
      e'.accumulate h' (batch.map ρ.sample) = ⟨.ok x, e₁', h'⟩ ∧
      Mirrors ρ g (e₁, h) (e₁', h')) ∨
    ∃ fault fault' e₁ e₁', e.accumulate h batch = ⟨.error fault, e₁, h⟩ ∧
      e'.accumulate h' (batch.map ρ.sample) = ⟨.error fault', e₁', h'⟩ ∧
      Mirrors ρ g (e₁, h) (e₁', h') := by
  obtain ⟨k, k', hk, hk', -⟩ := hm.training
  have hiff : batch.map ρ.sample ≠ [] ∧ (∀ x ∈ batch.map ρ.sample, g'.Accepts x) ↔
      batch ≠ [] ∧ ∀ x ∈ batch, g.Accepts x := by
    simp only [ne_eq, List.map_eq_nil_iff, List.forall_mem_map, hr.accepts_iff]
  by_cases hbatch : batch ≠ [] ∧ ∀ x ∈ batch, g.Accepts x
  · obtain ⟨x, hx⟩ :=
      (exists_accumulate_iff hp.toSound (by rw [isTrainable, hk]; rfl) h batch).2 hbatch
    obtain ⟨x', hx'⟩ :=
      (exists_accumulate_iff hp'.toSound (by rw [isTrainable, hk']; rfl) h' _).2 (hiff.2 hbatch)
    replace hx := accumulate_eq_ok hx
    replace hx' := accumulate_eq_ok hx'
    obtain ⟨rfl, hnext⟩ :=
      hm.accepted hr (hp.toSound.accepted_of_accumulate hx) (hp'.toSound.accepted_of_accumulate hx')
    exact .inl ⟨_, _, _, hx, hx', hnext⟩
  · obtain ⟨fault, e₁, hf, hpacking⟩ := exists_error_of_not_accepts hp.toSound hk hbatch
    obtain ⟨fault', e₁', hf', hpacking'⟩ :=
      exists_error_of_not_accepts hp'.toSound hk' (mt hiff.1 hbatch)
    exact .inr ⟨fault, fault', e₁, e₁', hf, hf', hm.repacked hpacking hpacking'⟩

theorem trainStep (hr : g.Renumbered ρ g') (hp : e.Placed g s options h)
    (hp' : e'.Placed g' s' options h') (hm : Mirrors ρ g (e, h) (e', h'))
    (batch : List (Sample α)) :
    (Reply.of .loss (e.trainStep h batch).result).Mirrors
        (.of .loss (e'.trainStep h' (batch.map ρ.sample)).result) ∧
      Mirrors ρ g ((e.trainStep h batch).engine, (e.trainStep h batch).host)
        ((e'.trainStep h' (batch.map ρ.sample)).engine,
          (e'.trainStep h' (batch.map ρ.sample)).host) := by
  have hplaced := hp.accumulate batch
  have hplaced' := hp'.accumulate (batch.map ρ.sample)
  rw [trainStep_eq, trainStep_eq]
  obtain ⟨x, e₁, e₁', hx, hx', hnext⟩ | ⟨fault, fault', e₁, e₁', hf, hf', hnext⟩ :=
    hm.accumulate hr hp hp' batch
  · rw [hx] at hplaced ⊢
    rw [hx'] at hplaced' ⊢
    exact ⟨rfl, (hnext.apply hr hplaced hplaced').2.2⟩
  · rw [hf, hf']
    exact ⟨trivial, hnext⟩

/-- Every call has the same reply, and leaves the same, under both kinds of ids. -/
theorem act (hr : g.Renumbered ρ g') (hp : e.Placed g s options h)
    (hp' : e'.Placed g' s' options h') (hm : Mirrors ρ g (e, h) (e', h')) (a : Action α) :
    (e.act h a).1.Mirrors (e'.act h' (ρ.action a)).1 ∧
      Mirrors ρ g (e.act h a).2 (e'.act h' (ρ.action a)).2 := by
  cases a with
  | forward x => exact hm.forward hr hp hp' x
  | evaluateMany xs =>
    refine ⟨?_, hm⟩
    have hok : (∃ outputs, e'.evaluateMany h' (xs.map ρ.sample) = .ok outputs) ↔
        ∃ outputs, e.evaluateMany h xs = .ok outputs := by
      rw [exists_evaluateMany_iff hp.toSound, exists_evaluateMany_iff hp'.toSound]
      simp only [List.forall_mem_map, hr.covered_inputs]
    show (Reply.of .manyOutputs (e.evaluateMany h xs)).Mirrors
      (.of .manyOutputs (e'.evaluateMany h' (xs.map ρ.sample)))
    generalize e.evaluateMany h xs = result at hok ⊢
    generalize e'.evaluateMany h' (xs.map ρ.sample) = result' at hok ⊢
    cases result <;> cases result' <;> simp_all [Reply.of, Reply.Mirrors]
  | trainStep batch => exact hm.trainStep hr hp hp' batch
  | accumulate batch =>
    show (Reply.of .loss (e.accumulate h batch).result).Mirrors
        (.of .loss (e'.accumulate h' (batch.map ρ.sample)).result) ∧
      Mirrors ρ g ((e.accumulate h batch).engine, (e.accumulate h batch).host)
        ((e'.accumulate h' (batch.map ρ.sample)).engine,
          (e'.accumulate h' (batch.map ρ.sample)).host)
    obtain ⟨x, e₁, e₁', hx, hx', hnext⟩ | ⟨fault, fault', e₁, e₁', hf, hf', hnext⟩ :=
      hm.accumulate hr hp hp' batch
    · rw [hx, hx']
      exact ⟨rfl, hnext⟩
    · rw [hf, hf']
      exact ⟨trivial, hnext⟩
  | apply =>
    obtain ⟨hdone, hdone', hnext⟩ := hm.apply hr hp hp'
    refine ⟨?_, hnext⟩
    show (Reply.of (fun _ => .done) (e.apply h).result).Mirrors
      (.of (fun _ => .done) (e'.apply h').result)
    rw [hdone, hdone']
    exact trivial
  | sync => exact ⟨trivial, hm.sync hr hp hp'⟩
  | reload => exact ⟨trivial, hm.reload hr hp hp'⟩

/-- Calls made one after the other leave the same under both kinds of ids. -/
theorem run (hr : g.Renumbered ρ g') (hp : e.Placed g s options h)
    (hp' : e'.Placed g' s' options h') (hm : Mirrors ρ g (e, h) (e', h'))
    (actions : List (Action α)) :
    Mirrors ρ g (e.run h actions) (e'.run h' (actions.map ρ.action)) := by
  induction actions generalizing e h e' h' with
  | nil => exact hm
  | cons a actions ih =>
    exact ih (hp.act a) (hp'.act (ρ.action a)) (hm.act hr hp hp' a).2

end Exact

/-! ### Compilation and reading -/

/-- Engines that are compiled next to the same host hold the same. -/
theorem of_compile (hr : g.Renumbered ρ g') (hh : g.HostedBy h)
    (hc : compile g h options true = .ok e) (hc' : compile g' h options true = .ok e') :
    Mirrors ρ g (e, h) (e', h) := by
  obtain ⟨-, -, hcurrent⟩ := placed_of_compile hc hh
  obtain ⟨-, -, hcurrent'⟩ := placed_of_compile hc' (hr.hostedBy hh)
  have hlive := live_eq_of_current hr hcurrent hcurrent' fun _ _ _ => rfl
  obtain ⟨s, l, store, training, rfl, htrain, -, hk⟩ := compile_spec hc
  obtain ⟨s', l', store', training', rfl, htrain', -, hk'⟩ := compile_spec hc'
  obtain ⟨k, rfl⟩ := Option.isSome_iff_exists.1 htrain
  obtain ⟨k', rfl⟩ := Option.isSome_iff_exists.1 htrain'
  obtain ⟨hoptimizer, hgrads⟩ := compileTraining_spec (hk k rfl)
  obtain ⟨hoptimizer', hgrads'⟩ := compileTraining_spec (hk' k' rfl)
  refine
    { live_eq := hlive
      host_eq := fun _ _ _ => rfl
      value_eq := fun n _ i _ => (Buffer.view_zeros ..).trans (Buffer.view_zeros ..).symm
      training := ⟨k, k', rfl, rfl, ?_, fun o _ i _ => ?_, fun o _ i _ => ?_⟩ }
  · rw [Optimizer.eq_of_build hoptimizer, Optimizer.eq_of_build hoptimizer']
  · rw [hgrads, hgrads', Buffer.getD_zeros, Buffer.getD_zeros]
  · rw [Optimizer.eq_of_build hoptimizer, Optimizer.eq_of_build hoptimizer']
    simp only [Buffer.planes, Buffer.getD_zeros]

end Mirrors

/-- The gradient of a parameter. -/
def gradient? (e : Engine α) (o : Owner) : Option (List α) :=
  e.gradients?.map fun grads => grads.slice (e.layout.slotOf o).flat (e.layout.slotOf o).len

/-- What is read off an engine and the host under an id is read off another engine and its host
under the new id. -/
structure ReadsAs (ρ : Renumbering) (g : Graph α) (x x' : Engine α × Host α) : Prop where
  value : ∀ n < g.numNodes, x'.1.value (ρ.node n) = x.1.value n
  weight : ∀ j < g.numEdges, x'.1.weight x'.2 (ρ.edge j) = x.1.weight x.2 j
  bias : ∀ n < g.numNodes, x'.1.bias x'.2 (ρ.node n) = x.1.bias x.2 n
  gradient : ∀ o, (g.tensor? o).isSome = true → x'.1.gradient? (ρ.owner o) = x.1.gradient? o
  host : ∀ o t, g.tensor? o = some t → x'.2.read t = x.2.read t

theorem Mirrors.readsAs (hr : g.Renumbered ρ g') (hp : e.Placed g s options h)
    (hp' : e'.Placed g' s' options h') (hm : Mirrors ρ g (e, h) (e', h')) :
    ReadsAs ρ g (e, h) (e', h') := by
  have hlen : ∀ o, (g.tensor? o).isSome = true →
      (e.layout.slotOf o).len = g.extent o ∧ (e'.layout.slotOf (ρ.owner o)).len = g.extent o := by
    intro o ho
    have ho' : (g'.tensor? (ρ.owner o)).isSome = true := by rwa [hr.tensor?_eq]
    exact ⟨hp.fits.len_eq ho, (hp'.fits.len_eq ho').trans (hr.extent_eq ho)⟩
  have hread : ∀ o, (g.tensor? o).isSome = true →
      e'.store.read h' (e'.layout.slotOf (ρ.owner o)) = e.store.read h (e.layout.slotOf o) := by
    intro o ho
    rw [Store.read, Store.read, (hlen o ho).1, (hlen o ho).2]
    exact List.map_congr_left fun i hi => hm.live_eq o ho i (List.mem_range.1 hi)
  obtain ⟨k, k', hk, hk', hkm⟩ := hm.training
  refine
    { value := fun n hn => ?_
      weight := fun j hj => ?_
      bias := fun n hn => ?_
      gradient := fun o ho => ?_
      host := hm.host_eq }
  · rw [Engine.value, Engine.value, hp.fits.node n hn, hp'.fits.node _ (hr.lt_numNodes_iff.2 hn)]
    simp only [Layout.nodeOf, hr.width_eq]
    exact congrArg Except.ok (Buffer.slice_congr (hm.value_eq n hn))
  · rw [Engine.weight, Engine.weight, hp.fits.edge j hj,
      hp'.fits.edge _ (hr.lt_numEdges_iff.2 hj)]
    exact congrArg Except.ok (hread (.weight j) (Graph.isSome_tensor?_weight.2 hj))
  · rw [Engine.bias, Engine.bias, hp.fits.node n hn, hp'.fits.node _ (hr.lt_numNodes_iff.2 hn)]
    simp only [Layout.nodeOf, hr.bias?_eq]
    cases hbias : g.bias? n with
    | none => rfl
    | some t =>
      exact congrArg (Except.ok ∘ some) (hread (.bias n) (Option.isSome_of_eq_some hbias))
  · rw [gradient?, gradient?, gradients?, gradients?, hk, hk', (hlen o ho).1, (hlen o ho).2]
    exact congrArg some (Buffer.slice_congr (hkm.grads_eq o ho))

/-- **Renumbering changes names alone.** A graph that compiles for training compiles under any
other order of its ids, each node in the set that it was in. From the same host, any calls made
under the new ids have the same replies as under the old ones, losses included, and after them every
node has the same value, and every weight and every bias has the same elements, the same gradient
and the same host tensor. This is in exact arithmetic, where a sum is the same in any order. -/
theorem renumbering_changes_names [Scalar.Exact α] (hρ : ρ.Permutes g) (hh : g.HostedBy h)
    (hc : compile g h options true = .ok e) :
    ∃ e', compile (g.renumber ρ hρ) h options true = .ok e' ∧
      (∃ s s', g.schedule = .ok s ∧ (g.renumber ρ hρ).schedule = .ok s' ∧
        ∀ n < g.numNodes, s'.setOf[ρ.node n]? = s.setOf[n]?) ∧
      ∀ actions : List (Action α),
        let x := e.run h actions
        let x' := e'.run h (actions.map ρ.action)
        ReadsAs ρ g x x' ∧
          ∀ a, (x.1.act x.2 a).1.Mirrors (x'.1.act x'.2 (ρ.action a)).1 := by
  have hr := Graph.renumbered_renumber hρ
  obtain ⟨e', hc'⟩ := hr.exists_compile hc h
  obtain ⟨s, hp, -⟩ := placed_of_compile hc hh
  obtain ⟨s', hp', -⟩ := placed_of_compile hc' (hr.hostedBy hh)
  refine ⟨e', hc', ⟨s, s', hp.schedule, hp'.schedule,
    fun n hn => hr.getElem?_setOf hp.schedule hp'.schedule hn⟩, fun actions => ?_⟩
  have hm := (Mirrors.of_compile hr hh hc hc').run hr hp hp' actions
  have hx := hp.run actions
  have hx' := hp'.run (actions.map ρ.action)
  exact ⟨hm.readsAs hr hx hx', fun a => (hm.act hr hx hx' a).1⟩

end Engine

/-- The ids 0 and 2 change places. -/
def Renumbering.turned : Renumbering := ⟨.swap 0 2, .swap 0 2⟩

namespace Engine

theorem renumbering_changes_names_descent :
    ∃ (hρ : Renumbering.turned.Permutes Graph.descent) (e e' : Engine ℚ) (h' : Host ℚ),
      compile (Graph.descent.renumber .turned hρ) .descent .chain true = .ok e ∧
      e.trainStep .descent [{ inputs := [(0, #[1, 1])], targets := [(2, #[83])] }] =
        ⟨.ok (1 / 2), e', h'⟩ ∧
      e'.weight h' 2 = .ok [-5, -7, -9] := by
  have hlt : ∀ n, Equiv.swap 0 2 n < 3 ↔ n < 3 := by
    intro n
    rw [Equiv.swap_apply_def]
    split
    · omega
    · split <;> omega
  have hρ : Renumbering.turned.Permutes Graph.descent := ⟨hlt, hlt⟩
  have hh : Graph.descent.HostedBy .descent :=
    Graph.hostedBy_of_parameters (by decide +kernel)
  let x : Sample ℚ := { inputs := [(2, #[1, 1])], targets := [(0, #[83])] }
  obtain ⟨e, hc, hrun⟩ := exists_eq_ok (x := compile .descent .descent .chain true)
    (f := fun e =>
      let o := e.trainStep .descent [x]
      (o.result.toOption.map id, (o.engine.weight o.host 0).toOption.map id))
    (c := (some (1 / 2), some [-5, -7, -9])) (by decide +kernel)
  obtain ⟨hresult, hweight⟩ := Prod.mk.inj hrun
  obtain ⟨loss, hresult, rfl⟩ := exists_eq_ok hresult
  obtain ⟨w, hweight, rfl⟩ := exists_eq_ok hweight
  obtain ⟨e', hc', -, hcalls⟩ := renumbering_changes_names hρ hh hc
  have hreply : (Reply.of .loss (e.trainStep .descent [x]).result).Mirrors
      (.of .loss (e'.trainStep .descent [Renumbering.turned.sample x]).result) :=
    (hcalls []).2 (.trainStep [x])
  have hread : (e'.trainStep .descent [Renumbering.turned.sample x]).engine.weight
      (e'.trainStep .descent [Renumbering.turned.sample x]).host 2 =
        (e.trainStep .descent [x]).engine.weight (e.trainStep .descent [x]).host 0 :=
    (hcalls [.trainStep [x]]).1.weight 0 (by decide)
  rw [hresult] at hreply
  rcases hrun' : e'.trainStep .descent [Renumbering.turned.sample x] with ⟨fault | loss', e₁, h₁⟩
  · simp [hrun', Reply.of, Reply.Mirrors] at hreply
  · obtain rfl : 1 / 2 = loss' := by simpa [hrun', Reply.of, Reply.Mirrors] using hreply
    rw [hrun'] at hread
    exact ⟨hρ, e', e₁, h₁, hc', hrun', hread.trans hweight⟩

end Engine

end GraphTape
