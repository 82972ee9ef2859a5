import GraphTape.Proofs.Engine.Faults
import GraphTape.Proofs.Engine.Phases

/-!
# Samples that are accepted

Whether a sample is accepted depends on the graph and on nothing that changes: every vector has to
be for a node that takes one and as wide as the node, and every such node needs a vector. A batch is
accepted if it has a sample and all of its samples are. The report of one that is not is about its
first bad sample, by the position of the sample in the batch.

* `Graph.Refuses`: a report about the first bad sample of a batch.
* `Engine.exists_accumulate_iff`, `Engine.refuses_of_accumulate`: the batches that are accepted, and
  the reports of the others.
-/

namespace GraphTape

variable {α : Type} {g : Graph α}

/-- A report about the sample at a position: if it names a sample, it is this one. -/
def Error.About (fault : Error α) (i : Nat) : Prop :=
  ∀ j n, fault = .missingTarget j n ∨ fault = .unexpectedTarget j n → j = i

/-- A report about the first bad sample of a batch whose samples are counted from `i`. -/
def Graph.Refuses (g : Graph α) (i : Nat) (batch : List (Sample α)) (fault : Error α) : Prop :=
  ∃ front sample back, batch = front ++ sample :: back ∧ (∀ other ∈ front, g.Accepts other) ∧
    ¬ g.Accepts sample ∧ fault.About (i + front.length)

/-- What is reported of a sample is about the sample. -/
theorem Graph.BlamesSample.about {i : Nat} {sample : Sample α} {fault : Error α}
    (h : g.BlamesSample i sample fault) : fault.About i := by
  rcases h with h | ⟨-, h⟩
  · cases h with
    | misfit hsplit hfront hbad => cases hbad <;> simp [Error.About, Region.inputs]
    | missing => simp [Error.About, Region.inputs]
  · cases h with
    | misfit hsplit hfront hbad => cases hbad <;> simp [Error.About, Region.targets, eq_comm]
    | missing => simp [Error.About, Region.targets, eq_comm]

theorem Graph.BlamesFirst.refuses {i : Nat} {batch : List (Sample α)} {fault : Error α}
    (h : g.BlamesFirst i batch fault) : g.Refuses i batch fault := by
  obtain ⟨front, sample, back, hsplit, hfront, hbad⟩ := h
  exact ⟨front, sample, back, hsplit, hfront, hbad.not_accepts, hbad.about⟩

namespace Engine

variable [Scalar α] {s : Schedule} {options : Options α} {train : Bool} {e : Engine α} {h : Host α}
  {batch : List (Sample α)}

theorem optimizer?_accumulate (e : Engine α) (h : Host α) (batch : List (Sample α)) :
    (e.accumulate h batch).engine.optimizer? = e.optimizer? := by
  have hbatched := batched_accumulate e h batch
  generalize e.accumulate h batch = outcome at hbatched ⊢
  cases hbatched <;> simp [optimizer?, *]

theorem optimizer?_apply {β : Type} {f f' : Optimizer α → β}
    (hf : ∀ o slots grads st h, f (o.step slots grads st h).1 = f' o) (e : Engine α) (h : Host α) :
    (e.apply h).engine.optimizer?.map f = e.optimizer?.map f' := by
  rw [Engine.apply]
  cases hk : e.training with
  | none => simp [optimizer?, hk]
  | some k => simp [optimizer?, hk, stepOptimizer, hf]

/-- What an update does not change of an optimizer, no call changes. -/
theorem optimizer?_act {β : Type} {f : Optimizer α → β}
    (hf : ∀ o slots grads st h, f (o.step slots grads st h).1 = f o) (e : Engine α) (h : Host α)
    (a : Action α) : (e.act h a).2.1.optimizer?.map f = e.optimizer?.map f := by
  cases a with
  | forward sample => rw [optimizer?, optimizer?, act, (e.forward_fields_eq h sample).2.2]
  | trainStep batch =>
    refine e.trainStep_cases h batch
      (P := fun o => o.engine.optimizer?.map f = e.optimizer?.map f) ?_ ?_
    · exact fun fault _ => by rw [optimizer?_accumulate]
    · exact fun x _ => by rw [optimizer?_apply hf, optimizer?_accumulate]
  | accumulate batch => exact congrArg _ (e.optimizer?_accumulate h batch)
  | apply => exact optimizer?_apply hf e h
  | evaluateMany | sync | reload => rfl

/-- A call does not change what an engine was compiled for. -/
theorem isTrainable_act (e : Engine α) (h : Host α) (a : Action α) :
    (e.act h a).2.1.isTrainable = e.isTrainable := by
  have hsome := congrArg Option.isSome (optimizer?_act (f := fun _ => ()) (by simp) e h a)
  simpa [optimizer?, isTrainable] using hsome

theorem isTrainable_of_reachable (he : Reachable g options train e) : e.isTrainable = train := by
  induction he with
  | compile hc =>
    obtain ⟨s, l, store, training, rfl, htrain, -⟩ := compile_spec hc
    exact htrain
  | act he h a ih => rw [isTrainable_act, ih]

/-- A batch is accepted if it has a sample and all of its samples are accepted. -/
theorem exists_accumulate_iff (he : e.Sound g s options) (htrain : e.isTrainable = true)
    (h : Host α) (batch : List (Sample α)) :
    (∃ x, (e.accumulate h batch).result = .ok x) ↔
      batch ≠ [] ∧ ∀ sample ∈ batch, g.Accepts sample := by
  have hbatched := batched_accumulate e h batch
  obtain ⟨haccepts, -⟩ := Layout.fst_packBatch_iff he.fits 0 batch
    (.zeros (batch.length * e.layout.inputLen)) (.zeros (batch.length * e.layout.targetLen))
  generalize e.accumulate h batch = outcome at hbatched ⊢
  cases hbatched with
  | notTrainable hk => simp [isTrainable, hk] at htrain
  | empty hk hempty => simp [List.isEmpty_iff.1 hempty]
  | refused hk hempty hpack =>
    refine ⟨fun hok => by simp at hok, fun hall => ?_⟩
    simpa [hpack] using haccepts.2 hall.2
  | accepted hk hempty hpack =>
    refine ⟨fun _ => ⟨List.isEmpty_eq_false_iff.1 hempty, ?_⟩, fun _ => ⟨_, rfl⟩⟩
    exact haccepts.1 (congrArg Prod.fst hpack)

/-- A batch with a bad sample is refused for the first such sample. -/
theorem refuses_of_accumulate (he : e.Sound g s options) (htrain : e.isTrainable = true)
    (hne : batch ≠ []) {fault : Error α} (hf : (e.accumulate h batch).result = .error fault) :
    g.Refuses 0 batch fault := by
  have hbatched := batched_accumulate e h batch
  generalize e.accumulate h batch = outcome at hbatched hf
  cases hbatched with
  | notTrainable hk => simp [isTrainable, hk] at htrain
  | empty hk hempty => exact absurd (List.isEmpty_iff.1 hempty) hne
  | refused hk hempty hpack =>
    obtain rfl := Except.error.inj hf
    obtain ⟨-, hblames⟩ := Layout.fst_packBatch_iff he.fits 0 batch _ _
    exact ((hblames _).1 (congrArg Prod.fst hpack)).refuses
  | accepted => contradiction

/-! ## Counting updates -/

/-- A training call that succeeds makes one update. -/
theorem steps_trainStep {x : α} (hx : (e.trainStep h batch).result = .ok x) :
    (e.trainStep h batch).engine.optimizer?.map Optimizer.steps =
      e.optimizer?.map (·.steps + 1) := by
  refine e.trainStep_cases h batch (P := fun o => o.result = .ok x →
    o.engine.optimizer?.map Optimizer.steps = e.optimizer?.map (·.steps + 1)) ?_ ?_ hx
  · exact fun fault hf hok => absurd (hf.symm.trans hok) (by simp)
  · intro y _ _
    rw [optimizer?_apply (fun _ _ _ _ _ => rfl), optimizer?_accumulate]

end Engine

end GraphTape
