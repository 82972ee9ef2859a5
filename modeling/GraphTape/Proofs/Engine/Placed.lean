import GraphTape.Proofs.Engine.Batch
import GraphTape.Proofs.Engine.Ownership
import GraphTape.Proofs.Optimizer.Checked

/-!
# Engines next to the host

An engine and the host memory of its graph, after any calls of the engine and any writes to host
tensors. Whatever their order, the store of the engine holds an element for every element of a
parameter, its slots name buffers that exist, and the state of the optimizer is as long as its rule
asks for.

* `Engine.Hosted`: the states of an engine and the host.
* `Engine.Placed`: the invariant (`Engine.placed_of_hosted`).
-/

namespace GraphTape

variable {α : Type} [Scalar α]

omit [Scalar α] in
/-- A write to a host tensor keeps the lengths of all of them. -/
theorem HostEdit.hosted {g : Graph α} {h h' : Host α} {t : Tensor} {change : HostEdit α}
    (hh : g.HostedBy h) (hw : change.perform h t = .ok h') : g.HostedBy h' := by
  cases change with
  | assign values =>
    simp only [perform, Host.assign] at hw
    split at hw
    · rename_i hsize
      exact Except.ok.inj hw ▸ hh.modify t hsize
    · contradiction
  | write f => exact Except.ok.inj hw ▸ hh.modify t Array.size_mapIdx

namespace Engine

/-- The engines that a graph is compiled to, next to the host, and what calls and writes to host
tensors make of the two. -/
inductive Hosted (g : Graph α) (options : Options α) (train : Bool) : Engine α → Host α → Prop
  | compile {h : Host α} {e : Engine α} (hh : g.HostedBy h)
      (hc : Engine.compile g h options train = .ok e) : Hosted g options train e h
  | act {e : Engine α} {h : Host α} (hx : Hosted g options train e h) (a : Action α) :
      Hosted g options train (e.act h a).2.1 (e.act h a).2.2
  | write {e : Engine α} {h h' : Host α} (hx : Hosted g options train e h) {t : Tensor}
      {change : HostEdit α} (hw : change.perform h t = .ok h') : Hosted g options train e h'

/-- An engine belongs to a scheduled graph, its store is placed next to the host, and its
optimizer fits the layout. -/
structure Placed (g : Graph α) (s : Schedule) (options : Options α) (e : Engine α) (h : Host α) :
    Prop extends e.Sound g s options where
  store : e.store.Placed g e.layout h
  optimizer : ∀ k, e.training = some k → k.optimizer.Fits e.layout

variable {g : Graph α} {s : Schedule} {options : Options α} {train : Bool} {e : Engine α}
  {h : Host α}

/-- A compiled training part has the optimizer that was asked for, and no gradients. -/
theorem compileTraining_spec {l : Layout} {k : Training α}
    (hk : compileTraining g s l options = .ok k) :
    Optimizer.build options.optimizer l.paramLen = .ok k.optimizer ∧
      k.grads = .zeros l.paramLen := by
  rw [compileTraining] at hk
  cases hr : Tape.reverse g l options.loss with
  | error e => simp [hr] at hk
  | ok backward =>
    cases ho : Optimizer.build options.optimizer l.paramLen with
    | error e => simp [hr, ho] at hk
    | ok optimizer =>
      simp only [hr, ho] at hk
      obtain rfl := Except.ok.inj hk
      exact ⟨rfl, rfl⟩

theorem fits_compileTraining {l : Layout} {k : Training α}
    (hk : compileTraining g s l options = .ok k) : k.optimizer.Fits l := by
  rw [Optimizer.eq_of_build (compileTraining_spec hk).1]
  refine ⟨rfl, ?_⟩
  cases options.optimizer <;> exact Buffer.size_zeros _

/-- A compiled engine is placed, with the elements of the host tensors. -/
theorem placed_of_compile (hc : compile g h options train = .ok e) (hh : g.HostedBy h) :
    ∃ s, e.Placed g s options h ∧ e.store.Current g e.layout h := by
  obtain ⟨s, l, store, training, rfl, -, hl, ht⟩ := compile_spec hc
  obtain ⟨hs, hshape, -, -⟩ := Layout.compile_spec hl
  obtain ⟨hplaced, hcurrent⟩ := Store.placed_of_compile hl hh
  exact ⟨s, { sound_assemble hs hshape (Layout.fits_of_compile hl)
      fun k hk => sound_compileTraining (ht k hk) with
    store := hplaced
    optimizer := fun k hk => fits_compileTraining (ht k hk) }, hcurrent⟩

namespace Placed

theorem forward (hp : e.Placed g s options h) (sample : Sample α) :
    (e.forward h sample).2.Placed g s options h := by
  have hsound := hp.toSound.forward h sample
  obtain ⟨hlayout, hstore, htraining⟩ := e.forward_fields_eq h sample
  refine { hsound with store := ?_, optimizer := ?_ }
  · rw [hlayout, hstore]
    exact hp.store
  · rw [hlayout, htraining]
    exact hp.optimizer

theorem accumulate (hp : e.Placed g s options h) (batch : List (Sample α)) :
    (e.accumulate h batch).engine.Placed g s options (e.accumulate h batch).host := by
  have hsound : (e.accumulate h batch).engine.Sound g s options :=
    hp.toSound.act h (.accumulate batch)
  have hbatched := batched_accumulate e h batch
  generalize e.accumulate h batch = outcome at hsound hbatched ⊢
  cases hbatched with
  | notTrainable | empty => exact hp
  | refused hk | accepted hk =>
    have hfits := hp.optimizer _ hk
    refine { hsound with store := hp.store, optimizer := fun k' hk' => ?_ }
    obtain rfl := Option.some.inj hk'
    exact hfits

/-- An update keeps the invariant, and brings the host tensors up to date. -/
theorem apply (hp : e.Placed g s options h) :
    (e.apply h).engine.Placed g s options (e.apply h).host := by
  have hsound : (e.apply h).engine.Sound g s options := hp.toSound.act h .apply
  rw [Engine.apply] at hsound ⊢
  cases hk : e.training with
  | none => exact hp
  | some k =>
    have hkept := hp.toSound.training k hk
    obtain ⟨-, hfits, hplaced⟩ := (hp.optimizer k hk).step?_eq hp.store hp.fits hkept.grads
    simp only [hk] at hsound ⊢
    rw [← hkept.slots] at hfits hplaced
    refine { hsound with store := hplaced.sync, optimizer := fun k' hk' => ?_ }
    obtain rfl := Option.some.inj hk'
    exact hfits

theorem act (hp : e.Placed g s options h) (a : Action α) :
    (e.act h a).2.1.Placed g s options (e.act h a).2.2 := by
  cases a with
  | forward sample => exact hp.forward sample
  | evaluateMany samples => exact hp
  | trainStep batch =>
    have hbatch := hp.accumulate batch
    exact e.trainStep_cases h batch (P := fun o => o.engine.Placed g s options o.host)
      (fun fault _ => hbatch) fun x _ => hbatch.apply
  | accumulate batch => exact hp.accumulate batch
  | apply => exact hp.apply
  | sync => exact { hp with store := hp.store.sync }
  | reload => exact { hp with store := hp.store.reload hp.fits }

/-- A host whose tensors have kept their lengths may take the place of another. -/
theorem rehost (hp : e.Placed g s options h) {h' : Host α} (hh : g.HostedBy h') :
    e.Placed g s options h' :=
  { hp with store := hp.store.rehost hh }

end Placed

/-- Every state of an engine next to the host keeps the invariant. -/
theorem placed_of_hosted (hx : Hosted g options train e h) : ∃ s, e.Placed g s options h := by
  induction hx with
  | compile hh hc =>
    obtain ⟨s, hs, -⟩ := placed_of_compile hc hh
    exact ⟨s, hs⟩
  | act hx a ih =>
    obtain ⟨s, hs⟩ := ih
    exact ⟨s, hs.act a⟩
  | write hx hw ih =>
    obtain ⟨s, hs⟩ := ih
    exact ⟨s, hs.rehost (HostEdit.hosted hs.store.hosted hw)⟩

end Engine

end GraphTape
