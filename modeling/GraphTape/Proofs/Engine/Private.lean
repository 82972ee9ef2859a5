import GraphTape.Proofs.Engine.Effect

/-!
# Engines that do not see the host

An engine with copies of its parameters reads host tensors when it is compiled and when it reloads,
and in no other call. Next to any two states of the host it returns the same and becomes the same
engine; what it leaves on the host may differ.

* `Outcome.Same`: outcomes that differ in the host only.
* `Engine.trainStep_same`, `Trainer.train_same` and so on: calls of an engine with copies.
* `Engine.compile_congr`, `Engine.Placed.reload_congr`: the calls that read the host.
-/

namespace GraphTape

variable {α : Type} [Scalar α]

/-- Outcomes with one result and one engine with copies of its parameters. Only the states of the
host differ. -/
inductive Outcome.Same {β : Type} : Outcome α β → Outcome α β → Prop
  | intro {result : Except (Error α) β} {e : Engine α} (hc : e.store.ownership = .copy)
      (h h' : Host α) : Same ⟨result, e, h⟩ ⟨result, e, h'⟩

/-! ## Stores -/

namespace Store

variable {st : Store α}

omit [Scalar α] in
theorem view_of_copy [Zero α] (hc : st.ownership = .copy) (h h' : Host α) :
    st.view h' = st.view h := by
  cases st with
  | owned => rfl
  | shared => contradiction

omit [Scalar α] in
/-- A change of a private store neither reads nor changes the host. -/
theorem fst_update_of_copy [Zero α] (hc : st.ownership = .copy) (h h' : Host α) (slot : Slot)
    (f : Nat → α → α) : (st.update h' slot f).1 = (st.update h slot f).1 := by
  cases st with
  | owned => rfl
  | shared => contradiction

end Store

/-- Updates of one private store, next to two states of the host. -/
structure Update.Same (u u' : Update α) : Prop where
  store_eq : u'.store = u.store
  aux_eq : u'.aux = u.aux
  copy : u.store.ownership = .copy

namespace Update.Same

variable {u u' : Update α}

theorem update (hu : u.Same u') (slot : Slot) (f : Nat → α → α) (aux : Buffer α) :
    Update.Same ⟨(u.store.update u.host slot f).1, (u.store.update u.host slot f).2, aux⟩
      ⟨(u'.store.update u'.host slot f).1, (u'.store.update u'.host slot f).2, aux⟩ where
  store_eq := by
    rw [hu.store_eq]
    exact Store.fst_update_of_copy hu.copy ..
  aux_eq := rfl
  copy := (Store.Placed.ownership_update ..).trans hu.copy

theorem step (hu : u.Same u') (r : Rule α) (slots : List Slot) (grads : Buffer α) :
    (r.step slots grads u').1 = (r.step slots grads u).1 ∧
      (r.step slots grads u).2.Same (r.step slots grads u').2 :=
  Rule.step_rel (fun hv => hv.aux_eq) (fun hv => hv.update) hu r slots grads

end Update.Same

/-! ## Calls -/

namespace Engine

variable {e : Engine α} {h h' : Host α}

theorem evaluate_of_copy (hc : e.store.ownership = .copy) (h h' : Host α) :
    e.evaluate h' = e.evaluate h := by
  funext input banks
  rw [evaluate, evaluate, Store.view_of_copy hc h h']

theorem forward_of_copy (hc : e.store.ownership = .copy) (h h' : Host α) (sample : Sample α) :
    e.forward h' sample = e.forward h sample := by
  rw [forward, forward, evaluate_of_copy hc h h']

theorem evaluateMany_of_copy (hc : e.store.ownership = .copy) (h h' : Host α)
    (samples : List (Sample α)) : e.evaluateMany h' samples = e.evaluateMany h samples := by
  have hstride : e.evaluateStride h' = e.evaluateStride h := by
    funext inputs i
    rw [evaluateStride, evaluateStride, evaluate_of_copy hc h h']
  rw [evaluateMany, evaluateMany, evaluateInOrder, evaluateInOrder, hstride]

theorem read_of_copy (hc : e.store.ownership = .copy) (h h' : Host α) :
    e.store.read h' = e.store.read h := by
  funext slot
  rw [Store.read, Store.read, Store.view_of_copy hc h h']

theorem accumulate_same (hc : e.store.ownership = .copy) (h h' : Host α)
    (batch : List (Sample α)) : (e.accumulate h batch).Same (e.accumulate h' batch) := by
  rw [accumulate, accumulate, runBatch, runBatch, Store.view_of_copy hc h h']
  rcases e.training with - | k
  · exact .intro hc h h'
  · simp only
    split
    · exact .intro hc h h'
    · split
      · refine .intro ?_ h h'
        exact hc
      · refine .intro ?_ h h'
        exact hc

/-- An update reads the private store only, and leaves it private. -/
theorem apply_same (hc : e.store.ownership = .copy) (h h' : Host α) :
    (e.apply h).Same (e.apply h') := by
  rw [apply, apply]
  rcases e.training with - | k
  · exact .intro hc h h'
  · have hstart : Update.Same ⟨e.store, h, k.optimizer.aux⟩ ⟨e.store, h', k.optimizer.aux⟩ :=
      ⟨rfl, rfl, hc⟩
    obtain ⟨hrule, hnext⟩ := hstart.step k.optimizer.rule k.slots k.grads
    simp only [stepOptimizer, Optimizer.step, hrule, hnext.store_eq, hnext.aux_eq]
    exact .intro hnext.copy _ _

theorem trainStep_same (hc : e.store.ownership = .copy) (h h' : Host α)
    (batch : List (Sample α)) : (e.trainStep h batch).Same (e.trainStep h' batch) := by
  have hbatch := accumulate_same hc h h' batch
  rw [trainStep_eq, trainStep_eq]
  generalize e.accumulate h batch = outcome at hbatch ⊢
  generalize e.accumulate h' batch = outcome' at hbatch ⊢
  obtain ⟨hc, h₁, h₁'⟩ := hbatch
  rename_i result e₁
  cases result with
  | error fault => exact .intro hc h₁ h₁'
  | ok x =>
    have hupdate := apply_same hc h₁ h₁'
    simp only
    generalize e₁.apply h₁ = outcome at hupdate ⊢
    generalize e₁.apply h₁' = outcome' at hupdate ⊢
    obtain ⟨hc, h₂, h₂'⟩ := hupdate
    exact .intro hc h₂ h₂'

end Engine

/-! ## Training runs -/

namespace Trainer

open Engine

theorem trainBatches_same {e : Engine α} (hc : e.store.ownership = .copy) (h h' : Host α)
    (total : α) (batches : List (List (Sample α))) :
    (trainBatches e h total batches).Same (trainBatches e h' total batches) := by
  induction batches generalizing e h h' total with
  | nil => exact .intro hc h h'
  | cons batch batches ih =>
    have hbatch := trainStep_same hc h h' batch
    rw [trainBatches, trainBatches]
    generalize e.trainStep h batch = outcome at hbatch ⊢
    generalize e.trainStep h' batch = outcome' at hbatch ⊢
    obtain ⟨hc, h₁, h₁'⟩ := hbatch
    rename_i result e₁
    cases result with
    | error fault => exact .intro hc h₁ h₁'
    | ok loss => exact ih hc h₁ h₁' (total + loss)

theorem trainEpochs_same {e : Engine α} (hc : e.store.ownership = .copy) (h h' : Host α)
    (data : List (List (Sample α))) (epoch n : Nat) :
    (trainEpochs e h data epoch n).Same (trainEpochs e h' data epoch n) := by
  induction n generalizing e h h' epoch with
  | zero => exact .intro hc h h'
  | succ n ih =>
    have hbatches := trainBatches_same hc h h' 0 data
    rw [trainEpochs, trainEpochs]
    generalize trainBatches e h 0 data = outcome at hbatches ⊢
    generalize trainBatches e h' 0 data = outcome' at hbatches ⊢
    obtain ⟨hc, h₁, h₁'⟩ := hbatches
    rename_i result e₁
    cases result with
    | error fault => exact .intro hc h₁ h₁'
    | ok total =>
      have hrest := ih hc h₁ h₁' (epoch + 1)
      simp only
      generalize trainEpochs e₁ h₁ data (epoch + 1) n = outcome at hrest ⊢
      generalize trainEpochs e₁ h₁' data (epoch + 1) n = outcome' at hrest ⊢
      obtain ⟨hc, h₂, h₂'⟩ := hrest
      rename_i result e₂
      cases result <;> exact .intro hc h₂ h₂'

theorem train_same {t : Trainer α} (hc : t.engine.store.ownership = .copy) (h h' : Host α)
    (data : List (Sample α)) : (t.train h data).Same (t.train h' data) := by
  rw [train, train]
  split
  · exact .intro hc h h'
  · have hepochs := trainEpochs_same hc h h' (batches t.config.batchSize data) 0 t.config.epochs
    generalize trainEpochs t.engine h _ 0 _ = outcome at hepochs ⊢
    generalize trainEpochs t.engine h' _ 0 _ = outcome' at hepochs ⊢
    obtain ⟨hc, h₁, h₁'⟩ := hepochs
    rename_i result e₁
    cases result <;> exact .intro hc h₁ h₁'

end Trainer

/-! ## Calls that read the host -/

section Read

variable {g : Graph α} {h h' : Host α}

omit [Scalar α] in
/-- Equal vectors are equal elements of the tensors. -/
theorem Graph.read_eq_of_vectors_eq (hH : g.vectors h' = g.vectors h) {o : Owner} {t : Tensor}
    (ht : g.tensor? o = some t) : h'.read t = h.read t := by
  have ho := congrFun hH o
  rw [vectors, vectors, ht, Option.elim_some, Option.elim_some] at ho
  exact Array.toList_inj.1 ho

omit [Scalar α] in
theorem Store.place_congr (hH : g.vectors h' = g.vectors h) (ownership : Ownership) :
    place ownership h' (g.parameters.map Prod.snd) =
      place ownership h (g.parameters.map Prod.snd) := by
  unfold place
  rcases sharedPair? (g.parameters.map Prod.snd) with - | pair
  · cases ownership with
    | reference => rfl
    | copy =>
      have hread : (g.parameters.map Prod.snd).foldl (fun b t => b ++ h'.read t) #[] =
          (g.parameters.map Prod.snd).foldl (fun b t => b ++ h.read t) #[] := by
        refine List.foldl_ext _ _ _ fun b t ht => ?_
        obtain ⟨p, hp, rfl⟩ := List.mem_map.1 ht
        rw [Graph.read_eq_of_vectors_eq hH (Graph.mem_parameters.1 hp)]
      simp only [hread]
  · rfl

/-- Compilation reads the vectors of the host. -/
theorem Engine.compile_congr (hH : g.vectors h' = g.vectors h) (options : Options α)
    (train : Bool) : compile g h' options train = compile g h options train := by
  have hlayout : ∀ ownership aux,
      Layout.compile g h' ownership aux = Layout.compile g h ownership aux := by
    intro ownership aux
    rw [Layout.compile, Layout.compile, Store.place_congr hH ownership]
  simp only [compile, compileTrainable, compileInference, hlayout]

theorem Trainer.build_congr (hH : g.vectors h' = g.vectors h) (config : TrainConfig α) :
    build g h' config = build g h config := by
  rw [build, build, Engine.compile_congr hH]

/-- A reload reads the vectors of the host. -/
theorem Engine.Placed.reload_congr {s : Schedule} {options : Options α} {e : Engine α}
    (hp : e.Placed g s options h) (hH : g.vectors h' = g.vectors h) : e.reload h' = e.reload h := by
  have hstore : e.store.reload h' = e.store.reload h := by
    have hbacks := hp.store.backs
    generalize e.store = st at hbacks ⊢
    cases hbacks with
    | shared => rfl
    | owned hsize hoffset =>
      rw [Store.reload, Store.reload]
      congr 1
      refine List.foldl_ext _ _ _ fun b p hp => ?_
      obtain ⟨q, hq, rfl⟩ := List.mem_map.1 hp
      simp only [Graph.read_eq_of_vectors_eq hH (Graph.mem_parameters.1 hq)]
  rw [reload, reload, hstore]

end Read

end GraphTape
