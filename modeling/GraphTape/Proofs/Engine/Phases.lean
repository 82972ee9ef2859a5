import GraphTape.Proofs.Engine.Failure
import GraphTape.Proofs.Memory.Copying

/-!
# Training in two phases

A training call is an accumulation followed by an update. The same parameters, gradients and
optimizer state come out when the two are called separately, and calls that do not train or that
fail may be made in between: what they change is neither read nor left by the update. A copy to
the host in between is hidden by the copy that ends the update.

* `Engine.Interlude`: the calls between the two phases.
* `Engine.Kept`: what they keep, and `Engine.Kept.apply`: what the update makes of it.
* `Engine.trainStep_eq_phases`: the two paths.
-/

namespace GraphTape

variable {α : Type} [Scalar α]

/-- Whether a call never touches the parameters, the gradients or the optimizer. -/
def Action.isIdle : Action α → Bool
  | .forward _ | .evaluateMany _ | .sync => true
  | .trainStep _ | .accumulate _ | .apply | .reload => false

/-- What an update reads of the training part. -/
def Training.core (k : Training α) : List Slot × Buffer α × Optimizer α :=
  (k.slots, k.grads, k.optimizer)

/-- What is true of two updates with equal states of the optimizer, and stays true when the same
slot is changed in both, is true after a step of the rule. -/
theorem Rule.step_rel {R : Update α → Update α → Prop}
    (haux : ∀ {u u' : Update α}, R u u' → u'.aux = u.aux)
    (hchange : ∀ {u u' : Update α}, R u u' → ∀ (slot : Slot) (f : Nat → α → α) (aux : Buffer α),
      R ⟨(u.store.update u.host slot f).1, (u.store.update u.host slot f).2, aux⟩
        ⟨(u'.store.update u'.host slot f).1, (u'.store.update u'.host slot f).2, aux⟩)
    {u u' : Update α} (hu : R u u') (r : Rule α) (slots : List Slot) (grads : Buffer α) :
    (r.step slots grads u').1 = (r.step slots grads u).1 ∧
      R (r.step slots grads u).2 (r.step slots grads u').2 := by
  cases r with
  | sgd lr =>
    refine ⟨rfl, List.foldl_rel hu fun slot _ v v' hv => ?_⟩
    have hnext := hchange hv slot (fun i w => w - lr * grads.view slot.flat i) v.aux
    simp only [descendSlot, haux hv]
    exact hnext
  | adam config t =>
    refine ⟨rfl, List.foldl_rel hu fun slot _ v v' hv => ?_⟩
    simp only [AdamConfig.updateSlot, haux hv]
    exact hchange hv slot _ _

namespace Engine

variable {e e' : Engine α} {h h' : Host α}

/-- Calls made one after the other, each of which is idle or fails where it is made. -/
inductive Interlude : Engine α → Host α → List (Action α) → Prop
  | nil {e : Engine α} {h : Host α} : Interlude e h []
  | idle {e : Engine α} {h : Host α} {a : Action α} {actions : List (Action α)}
      (ha : a.isIdle = true) (hrest : Interlude (e.act h a).2.1 (e.act h a).2.2 actions) :
      Interlude e h (a :: actions)
  | failed {e : Engine α} {h : Host α} {a : Action α} {actions : List (Action α)}
      {fault : Error α} (hf : (e.act h a).1 = .failed fault)
      (hrest : Interlude (e.act h a).2.1 (e.act h a).2.2 actions) : Interlude e h (a :: actions)

/-- Everything that an update reads is as it was. The host differs only in what the copy at the
end of the update hides. -/
structure Kept (x x' : Engine α × Host α) : Prop where
  layout_eq : x'.1.layout = x.1.layout
  store_eq : x'.1.store = x.1.store
  core_eq : x'.1.training.map Training.core = x.1.training.map Training.core
  hides : x.1.store.Hides x.2 x'.2

namespace Kept

variable {x x' x'' : Engine α × Host α}

theorem trans (hx : Kept x x') (hx' : Kept x' x'') : Kept x x'' where
  layout_eq := hx'.layout_eq.trans hx.layout_eq
  store_eq := hx'.store_eq.trans hx.store_eq
  core_eq := hx'.core_eq.trans hx.core_eq
  hides := hx.hides.trans (hx.store_eq ▸ hx'.hides)

/-- An engine with other packing buffers is kept. -/
theorem of_repacked (hr : e.Repacked e') (h : Host α) : Kept (e, h) (e', h) := by
  obtain ⟨-, inputs, targets, heq⟩ := hr
  rw [heq]
  refine ⟨rfl, rfl, ?_, .refl _ _⟩
  rcases hk : e.training with - | k
  · simp only [repack, hk, Option.map_none]
  · simp only [repack, hk, Option.map_some]
    rfl

theorem of_idle {a : Action α} (ha : a.isIdle = true) :
    Kept (e, h) ((e.act h a).2.1, (e.act h a).2.2) := by
  cases a with
  | forward sample =>
    show Kept (e, h) ((e.forward h sample).2, h)
    rw [Engine.forward]
    split <;> exact ⟨rfl, rfl, rfl, .refl _ _⟩
  | evaluateMany samples => exact ⟨rfl, rfl, rfl, .refl _ _⟩
  | sync => exact ⟨rfl, rfl, rfl, .sync _ _⟩
  | trainStep | accumulate | apply | reload => contradiction

/-- An interlude keeps what an update reads. -/
theorem of_interlude {actions : List (Action α)} (hi : Interlude e h actions) :
    Kept (e, h) (e.run h actions) := by
  induction hi with
  | nil => exact ⟨rfl, rfl, rfl, .refl _ _⟩
  | idle ha _ ih => exact (of_idle ha).trans ih
  | @failed e h a actions fault hf _ ih =>
    obtain ⟨hhost, hr⟩ := repacked_of_failed hf
    have hkept : Kept (e, h) ((e.act h a).2.1, (e.act h a).2.2) := by
      rw [hhost]
      exact of_repacked hr h
    exact hkept.trans ih

end Kept

/-! ## Updates -/

/-- Two updates of one store, from hosts that the store hides. -/
structure Abreast (u u' : Update α) : Prop where
  store_eq : u'.store = u.store
  aux_eq : u'.aux = u.aux
  hides : u.store.Hides u.host u'.host

namespace Abreast

variable {u u' : Update α}

theorem update (hu : Abreast u u') (slot : Slot) (f : Nat → α → α) (aux : Buffer α) :
    Abreast ⟨(u.store.update u.host slot f).1, (u.store.update u.host slot f).2, aux⟩
      ⟨(u'.store.update u'.host slot f).1, (u'.store.update u'.host slot f).2, aux⟩ := by
  obtain ⟨hstore, hhides⟩ := hu.hides.update slot f
  rw [hu.store_eq]
  exact ⟨hstore, rfl, hhides⟩

theorem step (hu : Abreast u u') (r : Rule α) (slots : List Slot) (grads : Buffer α) :
    (r.step slots grads u').1 = (r.step slots grads u).1 ∧
      Abreast (r.step slots grads u).2 (r.step slots grads u').2 :=
  Rule.step_rel (fun hv => hv.aux_eq) (fun hv => hv.update) hu r slots grads

end Abreast

/-- An update leaves the same, from any state of the host that the store hides. -/
theorem Kept.apply (hkept : Kept (e, h) (e', h')) {k : Training α} (hk : e.training = some k) :
    (e'.apply h').result = (e.apply h).result ∧ (e'.apply h').host = (e.apply h).host ∧
      (e'.apply h').engine.layout = (e.apply h).engine.layout ∧
      (e'.apply h').engine.store = (e.apply h).engine.store ∧
      (e'.apply h').engine.gradients? = (e.apply h).engine.gradients? ∧
      (e'.apply h').engine.optimizer? = (e.apply h).engine.optimizer? := by
  obtain ⟨hlayout, hstore, hcore, hhides⟩ := hkept
  simp only at hlayout hstore hcore hhides
  rcases hk' : e'.training with - | k'
  · simp [hk, hk'] at hcore
  · rw [hk, hk', Option.map_some, Option.map_some, Option.some_inj] at hcore
    obtain ⟨hslots, hrest⟩ := Prod.mk.inj hcore
    obtain ⟨hgrads, hoptimizer⟩ := Prod.mk.inj hrest
    have hstart : Abreast ⟨e.store, h, k.optimizer.aux⟩ ⟨e.store, h', k.optimizer.aux⟩ :=
      ⟨rfl, rfl, hhides⟩
    obtain ⟨hrule, hnext⟩ := hstart.step k.optimizer.rule k.slots k.grads
    simp only [Engine.apply, hk, hk', stepOptimizer, Optimizer.step, gradients?, optimizer?,
      Option.map_some, hlayout, hstore, hslots, hgrads, hoptimizer, hrule, hnext.store_eq,
      hnext.aux_eq, hnext.hides.sync_eq, and_self]

/-! ## The two paths -/

theorem result_trainStep (e : Engine α) (h : Host α) (batch : List (Sample α)) :
    (e.trainStep h batch).result = (e.accumulate h batch).result := by
  refine e.trainStep_cases h batch (P := fun o => o.result = (e.accumulate h batch).result) ?_ ?_
  · exact fun fault _ => rfl
  · exact fun x hx => hx.symm

/-- A batch that is accepted leaves an engine for training. -/
theorem exists_training_of_ok {batch : List (Sample α)} {x : α}
    (hx : (e.accumulate h batch).result = .ok x) :
    ∃ k, (e.accumulate h batch).engine.training = some k := by
  have hbatched := batched_accumulate e h batch
  generalize e.accumulate h batch = outcome at hbatched hx ⊢
  cases hbatched with
  | accepted => exact ⟨_, rfl⟩
  | notTrainable | empty | refused => contradiction

/-- **Training in two phases.** A training call accepts the batches that an accumulation accepts,
with the same loss or the same fault. What it leaves is what an accumulation and an update leave,
with any idle or failing calls in between: the same host memory, the same parameters and the same
optimizer, and gradients that are all zero. -/
theorem trainStep_eq_phases {g : Graph α} {options : Options α} {train : Bool}
    (he : Reachable g options train e) (h : Host α) (batch : List (Sample α)) :
    (e.trainStep h batch).result = (e.accumulate h batch).result ∧
      ∀ x, (e.accumulate h batch).result = .ok x → ∀ (actions : List (Action α)) e' h',
        Interlude (e.accumulate h batch).engine (e.accumulate h batch).host actions →
        (e.accumulate h batch).engine.run (e.accumulate h batch).host actions = (e', h') →
        (e'.apply h').result = .ok () ∧
        (e'.apply h').host = (e.trainStep h batch).host ∧
        (e'.apply h').engine.params (e'.apply h').host =
          (e.trainStep h batch).engine.params (e.trainStep h batch).host ∧
        (e'.apply h').engine.optimizer? = (e.trainStep h batch).engine.optimizer? ∧
        (e'.apply h').engine.gradients? = (e.trainStep h batch).engine.gradients? ∧
        (e'.apply h').engine.gradients? = some (.zeros e.layout.paramLen) := by
  refine ⟨e.result_trainStep h batch, fun x hx actions e' h' hi hrun => ?_⟩
  obtain ⟨s, hs⟩ := sound_of_reachable he
  have hsound : (e.accumulate h batch).engine.Sound g s options := hs.act h (.accumulate batch)
  have hlayout : (e.accumulate h batch).engine.layout = e.layout :=
    (batched_accumulate e h batch).fields_eq.1
  obtain ⟨k, hk⟩ := exists_training_of_ok hx
  have hkept := hrun ▸ Kept.of_interlude hi
  rw [trainStep_eq]
  generalize e.accumulate h batch = outcome at hx hi hrun hsound hlayout hk hkept ⊢
  obtain ⟨result, e₁, h₁⟩ := outcome
  obtain rfl : result = .ok x := hx
  obtain ⟨hresult, hhost, hengine, hstore, hgrads, hoptimizer⟩ := hkept.apply hk
  have hdone : (e₁.apply h₁).result = .ok () ∧
      (e₁.apply h₁).engine.gradients? = some (.zeros k.grads.size) := by
    rw [Engine.apply, hk]
    exact ⟨rfl, rfl⟩
  refine ⟨hresult.trans hdone.1, hhost, ?_, hoptimizer, hgrads, hgrads.trans ?_⟩
  · show (e'.apply h').engine.params _ = (e₁.apply h₁).engine.params (e₁.apply h₁).host
    rw [params, params, hengine, hstore, hhost]
  · rw [hdone.2, (hsound.training k hk).grads, hlayout]

theorem trainStep_eq_phases_chain :
    ∃ (e e' : Engine ℚ) (h' : Host ℚ),
      compile (.chain 0) .chain .chain true = .ok e ∧
      Interlude (e.accumulate .chain [.chain]).engine (e.accumulate .chain [.chain]).host
        [.forward .chain, .trainStep [{}], .sync] ∧
      (e.accumulate .chain [.chain]).engine.run (e.accumulate .chain [.chain]).host
        [.forward .chain, .trainStep [{}], .sync] = (e', h') ∧
      (e'.apply h').host = (e.trainStep .chain [.chain]).host ∧
      (e.trainStep .chain [.chain]).host.cells = #[#[-13], #[0]] ∧
      (e'.apply h').engine.gradients? = some #[0, 0] := by
  obtain ⟨e, hc, hrun⟩ := exists_eq_ok (x := compile (.chain 0) .chain .chain true)
    (f := fun e =>
      let accumulated := e.accumulate .chain [.chain]
      (accumulated.result.toOption.isSome,
        ((accumulated.engine.forward accumulated.host .chain).2.trainStep accumulated.host
          [{}]).result.toOption.isSome,
        (e.trainStep .chain [.chain]).host.cells, e.layout.paramLen))
    (c := (true, false, #[#[-13], #[0]], 2)) (by decide +kernel)
  simp only [Prod.mk.injEq] at hrun
  obtain ⟨haccepted, hrefused, hcells, hlen⟩ := hrun
  obtain ⟨x, hx⟩ : ∃ x, (e.accumulate .chain [.chain]).result = .ok x := by
    rcases hx : (e.accumulate .chain [.chain]).result with fault | x
    · simp [hx, Except.toOption] at haccepted
    · exact ⟨x, rfl⟩
  have hi : Interlude (e.accumulate .chain [.chain]).engine (e.accumulate .chain [.chain]).host
      [.forward .chain, .trainStep [{}], .sync] := by
    refine .idle rfl ?_
    rcases hf : ((e.accumulate .chain [.chain]).engine.forward
      (e.accumulate .chain [.chain]).host .chain).2.trainStep (e.accumulate .chain [.chain]).host
        [{}] with ⟨fault | y, e₁, h₁⟩
    · exact .failed (congrArg (fun o : Outcome ℚ ℚ => Reply.of Reply.loss o.result) hf)
        (.idle rfl .nil)
    · simp [hf, Except.toOption] at hrefused
  obtain ⟨-, htwo⟩ := trainStep_eq_phases (.compile hc) .chain [.chain]
  obtain ⟨-, hhost, -, -, -, hgrads⟩ := htwo x hx _ _ _ hi rfl
  rw [hlen] at hgrads
  exact ⟨e, _, _, hc, hi, rfl, hhost, hcells, hgrads⟩

end Engine

end GraphTape
