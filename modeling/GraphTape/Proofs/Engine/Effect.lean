import GraphTape.Proofs.Engine.Phases
import GraphTape.Proofs.Engine.Placed
import GraphTape.Proofs.Optimizer.Step

/-!
# What calls do to parameters

The parameters of an engine are vectors of its own or those of the host. Seen from there a call
has one of three effects, or none: it replaces the vectors by the result of an update and stores
them on the host, it only stores them, or it loads them from the host.

* `Share`, `Effect.run`: the vectors of an engine next to those of the host.
* `Engine.effect?`, `Engine.effects`: the effects of calls.
* `Engine.Placed.act_refines`, `Engine.Placed.run_refines`: that the calls have these effects.
-/

namespace GraphTape

/-- The parameters of an engine: vectors of its own, or those of the host. -/
inductive Share (α : Type) where
  | copy (P : Vectors α)
  | reference

/-- What a call does to the parameters of its engine. -/
inductive Effect (α : Type) where
  /-- Replaces the vectors by others, which are stored on the host as well. -/
  | update (f : Vectors α → Vectors α)
  /-- Stores the vectors on the host. -/
  | store
  /-- Loads the vectors from the host. -/
  | load

variable {α : Type}

namespace Share

/-- The parameters of an engine with the vectors `P`, if it has copies. -/
def of (P : Vectors α) : Ownership → Share α
  | .copy => copy P
  | .reference => reference

/-- The vectors of the engine, when the host has `H`. -/
def params (H : Vectors α) : Share α → Vectors α
  | copy P => P
  | reference => H

/-- The parameters after the engine has taken over vectors that the host has as well. -/
def settle (P : Vectors α) : Share α → Share α
  | copy _ => copy P
  | reference => reference

end Share

/-- The vectors of the host and those of the engine after a call with the effect. -/
def Effect.run (H : Vectors α) (share : Share α) : Effect α → Vectors α × Share α
  | update f =>
    let P := f (share.params H)
    (P, share.settle P)
  | store => (share.params H, share)
  | load => (H, share.settle H)

/-- After every effect the engine has the vectors of the host. -/
theorem Effect.params_run (H : Vectors α) (share : Share α) (x : Effect α) :
    (x.run H share).2.params (x.run H share).1 = (x.run H share).1 := by
  cases x <;> cases share <;> rfl

/-- The vectors that the host tensors of a graph hold. -/
def Graph.vectors (g : Graph α) (h : Host α) : Vectors α :=
  fun o => (g.tensor? o).elim [] fun t => (h.read t).toList

variable [Scalar α] {g : Graph α} {s : Schedule} {options : Options α}

/-- A store whose elements are those of the host tensors holds the vectors of the host. -/
theorem Store.Serves.vectors_eq {l : Layout} {st : Store α} {h : Host α} (hs : st.Serves g l h)
    (hl : l.Fits g) (hc : st.Current g l h) : g.vectors h = st.vectors l h := by
  funext o
  rw [Graph.vectors, Store.vectors, Store.read]
  rcases ht : g.tensor? o with - | t
  · rw [hl.slotOf_of_none ht]
    rfl
  · have hsize := hs.size_read ht
    rw [hl.len_eq (by rw [ht, Option.isSome_some])]
    apply List.ext_getElem (by simp [hsize])
    intro i hi hi'
    simp only [List.length_map, List.length_range] at hi'
    simp only [Option.elim_some, Array.getElem_toList, List.getElem_map, List.getElem_range,
      hc o t ht i hi', Buffer.view, Nat.zero_add]
    exact (Array.getElem_eq_getD 0)

/-- Storing leaves the vectors of a store as they are. -/
theorem Store.vectors_sync (st : Store α) (l : Layout) (h : Host α) :
    st.vectors l (st.sync h) = st.vectors l h := by
  funext o
  rw [vectors, vectors, read, read, view_sync]

namespace Engine

variable {e e' : Engine α} {h h' : Host α}

/-- The parameters of an engine. -/
def share (e : Engine α) (h : Host α) : Share α :=
  .of (e.store.vectors e.layout h) e.store.ownership

/-- The effect of a call, if it has one: an update is by the gradients and the optimizer that the
engine has, in a training call once the batch has been accumulated. -/
def effect? (e : Engine α) (h : Host α) : Action α → Option (Effect α)
  | .trainStep batch =>
    match e.accumulate h batch with
    | ⟨.error _, _, _⟩ => none
    | ⟨.ok _, e, _⟩ => e.training.map fun k => .update (k.optimizer.result e.layout k.grads)
  | .apply => e.training.map fun k => .update (k.optimizer.result e.layout k.grads)
  | .sync => some .store
  | .reload => some .load
  | .forward _ | .evaluateMany _ | .accumulate _ => none

/-- The effects of calls made one after the other. -/
def effects (e : Engine α) (h : Host α) : List (Action α) → List (Effect α)
  | [] => []
  | a :: actions => (e.effect? h a).toList ++ effects (e.act h a).2.1 (e.act h a).2.2 actions

theorem share_congr (hlayout : e'.layout = e.layout) (hstore : e'.store = e.store) :
    e'.share h = e.share h := by
  rw [share, share, hlayout, hstore]

/-- The vectors of an engine's own do not depend on the host. -/
theorem share_rehost (e : Engine α) (h h' : Host α) : e.share h' = e.share h := by
  rw [share, share]
  rcases e.store with ⟨buffer, hosts⟩ | tensors <;> rfl

/-- An engine that has taken over vectors. -/
theorem share_eq_settle {P : Vectors α}
    (hownership : e'.store.ownership = e.store.ownership)
    (hvectors : e'.store.vectors e'.layout h' = P) : e'.share h' = (e.share h).settle P := by
  rw [share, share, hownership, hvectors]
  cases e.store.ownership <;> rfl

namespace Placed

/-- The vectors of an engine are its live parameters, also when they are those of the host. -/
theorem params_share (hp : e.Placed g s options h) :
    (e.share h).params (g.vectors h) = e.store.vectors e.layout h := by
  rw [share]
  rcases hstore : e.store with ⟨buffer, hosts⟩ | tensors
  · rfl
  · have hcurrent := hp.store.toServes.sync.2
    simp only [hstore, Store.sync] at hcurrent
    have hserves := hp.store.toServes
    rw [hstore] at hserves
    exact hserves.vectors_eq hp.fits hcurrent

/-- Storing brings the vectors of the host up to date. -/
theorem sync_refines (hp : e.Placed g s options h) :
    (g.vectors (e.sync h), e.share (e.sync h)) = Effect.store.run (g.vectors h) (e.share h) := by
  obtain ⟨hserves, hcurrent⟩ := hp.store.toServes.sync
  refine Prod.ext ?_ (e.share_rehost h _)
  calc g.vectors (e.store.sync h)
    _ = e.store.vectors e.layout (e.store.sync h) := hserves.vectors_eq hp.fits hcurrent
    _ = e.store.vectors e.layout h := Store.vectors_sync ..
    _ = (e.share h).params (g.vectors h) := hp.params_share.symm

/-- An update replaces the vectors by its result, and stores them on the host. -/
theorem apply_refines (hp : e.Placed g s options h) {k : Training α} (hk : e.training = some k) :
    (g.vectors (e.apply h).host, (e.apply h).engine.share (e.apply h).host) =
      (Effect.update (k.optimizer.result e.layout k.grads)).run (g.vectors h) (e.share h) := by
  have hsound := hp.toSound.training k hk
  obtain ⟨hvectors, hownership, hplaced⟩ :=
    (hp.optimizer k hk).step_spec hp.store hp.fits hsound.grads
  rw [← hsound.slots] at hvectors hownership hplaced
  rw [← hp.params_share] at hvectors
  simp only [Engine.apply, hk, stepOptimizer]
  generalize k.optimizer.step k.slots k.grads e.store h = stepped at hvectors hownership hplaced ⊢
  obtain ⟨optimizer, st, h₁⟩ := stepped
  obtain ⟨hserves, hcurrent⟩ := hplaced.toServes.sync
  rw [← Store.vectors_sync] at hvectors
  exact Prod.ext ((hserves.vectors_eq hp.fits hcurrent).trans hvectors)
    (share_eq_settle hownership hvectors)

/-- Every call has the effect that it is said to have, or none. -/
theorem act_refines (hp : e.Placed g s options h) (a : Action α) :
    (g.vectors (e.act h a).2.2, (e.act h a).2.1.share (e.act h a).2.2) =
      (e.effect? h a).elim (g.vectors h, e.share h) (·.run (g.vectors h) (e.share h)) := by
  cases a with
  | forward sample =>
    obtain ⟨hlayout, hstore, -⟩ := e.forward_fields_eq h sample
    exact Prod.ext rfl (share_congr hlayout hstore)
  | evaluateMany samples => rfl
  | trainStep batch =>
    obtain ⟨hlayout, hstore, hhost⟩ := (batched_accumulate e h batch).fields_eq
    have hplaced := hp.accumulate batch
    show (g.vectors (e.trainStep h batch).host,
      (e.trainStep h batch).engine.share (e.trainStep h batch).host) = _
    rw [effect?, trainStep_eq]
    rcases hrun : e.accumulate h batch with ⟨result, e₁, h₁⟩
    rw [hrun] at hlayout hstore hhost hplaced
    obtain rfl : h₁ = h := hhost
    cases result with
    | error fault => exact Prod.ext rfl (share_congr hlayout hstore)
    | ok x =>
      obtain ⟨k, hk⟩ := exists_training_of_ok (x := x) (by rw [hrun])
      rw [hrun] at hk
      replace hk : e₁.training = some k := hk
      simp only [hk, Option.map_some, Option.elim_some]
      rw [hplaced.apply_refines hk, share_congr hlayout hstore]
  | accumulate batch =>
    obtain ⟨hlayout, hstore, hhost⟩ := (batched_accumulate e h batch).fields_eq
    show (g.vectors (e.accumulate h batch).host,
      (e.accumulate h batch).engine.share (e.accumulate h batch).host) = _
    rw [hhost]
    exact Prod.ext rfl (share_congr hlayout hstore)
  | apply =>
    show (g.vectors (e.apply h).host, (e.apply h).engine.share (e.apply h).host) = _
    rw [effect?]
    rcases hk : e.training with - | k
    · simp only [Engine.apply, hk, Option.map_none, Option.elim_none]
    · exact hp.apply_refines hk
  | sync => exact hp.sync_refines
  | reload =>
    obtain ⟨hserves, hcurrent⟩ := hp.store.toServes.reload hp.fits
    refine Prod.ext rfl (share_eq_settle ?_ (hserves.vectors_eq hp.fits hcurrent).symm)
    show (e.store.reload h).ownership = e.store.ownership
    cases e.store <;> rfl

/-- Calls made one after the other have their effects one after the other. -/
theorem run_refines (hp : e.Placed g s options h) (actions : List (Action α)) :
    (g.vectors (e.run h actions).2, (e.run h actions).1.share (e.run h actions).2) =
      (e.effects h actions).foldl (fun x effect => effect.run x.1 x.2)
        (g.vectors h, e.share h) := by
  induction actions generalizing e h with
  | nil => rfl
  | cons a actions ih =>
    rw [run, effects, List.foldl_append, ih (hp.act a), hp.act_refines a]
    cases e.effect? h a <;> rfl

theorem run (hp : e.Placed g s options h) (actions : List (Action α)) :
    (e.run h actions).1.Placed g s options (e.run h actions).2 := by
  induction actions generalizing e h with
  | nil => exact hp
  | cons a actions ih => exact ih (hp.act a)

end Placed

end Engine

end GraphTape
