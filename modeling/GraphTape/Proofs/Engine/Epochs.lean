import GraphTape.Proofs.Engine.Acceptance
import GraphTape.Scalar.Double

/-!
# Training in epochs

A training run makes the training calls for the batches of the data, epoch after epoch, and nothing
else. It stops at the first call that fails. Which batches are refused does not depend on what has
been learned, so a run that comes to the end of the first epoch comes to the end.

* `batches_flatten`, `length_batches`, `getElem?_batches`: the batches.
* `Engine.Course`: training calls that all succeed, with their losses.
* `Trainer.trainBatches_spec`, `Trainer.trainEpochs_spec`: the two loops.
* `Trainer.train_folds_training_calls`: the whole run.
-/

namespace GraphTape

/-! ## Batches -/

section Batches

variable {β : Type} {size : Nat}

theorem batches_of_ne_nil (hsize : 0 < size) {data : List β} (hne : data ≠ []) :
    batches size data = data.take size :: batches size (data.drop size) := by
  rw [batches, dif_neg (by simp [hne]; omega)]

@[simp]
theorem batches_nil : batches size ([] : List β) = [] := by
  rw [batches, dif_pos (.inr rfl)]

/-- What holds without data, and with one more batch, holds of all data. -/
theorem batches_induction {motive : List β → Prop} (hsize : 0 < size) (nil : motive [])
    (cons : ∀ data, data ≠ [] → motive (data.drop size) → motive data) (data : List β) :
    motive data := by
  induction data using batches.induct size with
  | case1 data h =>
    obtain rfl := h.resolve_left (by omega)
    exact nil
  | case2 data h ih => exact cons data (not_or.1 h).2 ih

theorem batches_flatten (hsize : 0 < size) (data : List β) :
    (batches size data).flatten = data := by
  induction data using batches_induction hsize with
  | nil => rw [batches_nil, List.flatten_nil]
  | cons data hne ih =>
    rw [batches_of_ne_nil hsize hne, List.flatten_cons, ih, List.take_append_drop]

theorem ne_nil_of_mem_batches (hsize : 0 < size) (data : List β) {batch : List β}
    (hbatch : batch ∈ batches size data) : batch ≠ [] := by
  induction data using batches_induction hsize with
  | nil => simp at hbatch
  | cons data hne ih =>
    rw [batches_of_ne_nil hsize hne, List.mem_cons] at hbatch
    rcases hbatch with rfl | hbatch
    · simp [hne]
      omega
    · exact ih hbatch

theorem length_batches (hsize : 0 < size) (data : List β) :
    (batches size data).length = (data.length + size - 1) / size := by
  induction data using batches_induction hsize with
  | nil =>
    rw [batches_nil]
    exact (Nat.div_eq_of_lt (by simp; omega)).symm
  | cons data hne ih =>
    have hpos := List.length_pos_iff.2 hne
    rw [batches_of_ne_nil hsize hne, List.length_cons, ih, List.length_drop]
    by_cases hle : size ≤ data.length
    · rw [show data.length + size - 1 = data.length - size + size - 1 + size by omega,
        Nat.add_div_right _ hsize]
    · rw [show data.length - size = 0 by omega, Nat.div_eq_of_lt (by omega)]
      exact (Nat.div_eq_of_lt_le (by omega) (by omega)).symm

/-- Batch `i` takes up where the batches before it end. -/
theorem getElem?_batches (hsize : 0 < size) (data : List β) (i : Nat) :
    (batches size data)[i]? =
      if i * size < data.length then some ((data.drop (i * size)).take size) else none := by
  induction data using batches_induction hsize generalizing i with
  | nil => simp
  | cons data hne ih =>
    have hpos := List.length_pos_iff.2 hne
    rw [batches_of_ne_nil hsize hne]
    cases i with
    | zero => simp [hpos]
    | succ i =>
      rw [List.getElem?_cons_succ, ih, List.length_drop, List.drop_drop, Nat.succ_mul,
        Nat.add_comm size]
      exact if_congr (by omega) rfl rfl

end Batches

/-- The first entry that `P` does not hold of is where it is. -/
theorem append_cons_inj {ι : Type} {P : ι → Prop} {front front' back back' : List ι} {x x' : ι}
    (h : front ++ x :: back = front' ++ x' :: back') (hfront : ∀ y ∈ front, P y) (hx : ¬ P x)
    (hfront' : ∀ y ∈ front', P y) (hx' : ¬ P x') : front = front' ∧ x = x' ∧ back = back' := by
  induction front generalizing front' with
  | nil =>
    cases front' with
    | nil => exact ⟨rfl, List.cons.inj h⟩
    | cons y front' =>
      obtain rfl := (List.cons.inj h).1
      exact absurd (hfront' _ List.mem_cons_self) hx
  | cons y front ih =>
    cases front' with
    | nil =>
      obtain rfl := (List.cons.inj h).1
      exact absurd (hfront _ List.mem_cons_self) hx'
    | cons y' front' =>
      obtain ⟨rfl, hrest⟩ := List.cons.inj h
      obtain ⟨rfl, hlast⟩ := ih hrest (fun z hz => hfront z (List.mem_cons_of_mem y hz))
        fun z hz => hfront' z (List.mem_cons_of_mem y hz)
      exact ⟨rfl, hlast⟩

variable {α : Type} [Scalar α]

namespace Engine

/-! ## Training calls in a row -/

/-- Training calls for some batches, one after the other, all of which succeed. They return the
losses and leave the engine `e'` and the host `h'`. -/
inductive Course : Engine α → Host α → List (List (Sample α)) → List α → Engine α → Host α → Prop
  | nil {e : Engine α} {h : Host α} : Course e h [] [] e h
  | cons {e e₁ e' : Engine α} {h h₁ h' : Host α} {batch : List (Sample α)} {loss : α}
      {batches : List (List (Sample α))} {losses : List α}
      (hstep : e.trainStep h batch = ⟨.ok loss, e₁, h₁⟩)
      (hrest : Course e₁ h₁ batches losses e' h') :
      Course e h (batch :: batches) (loss :: losses) e' h'

/-- Training calls in a row of which one fails. -/
def BreaksOff (e : Engine α) (h : Host α) (batches : List (List (Sample α))) (fault : Error α)
    (e' : Engine α) (h' : Host α) : Prop :=
  ∃ front batch back losses e₁ h₁, batches = front ++ batch :: back ∧
    Course e h front losses e₁ h₁ ∧ e₁.trainStep h₁ batch = ⟨.error fault, e', h'⟩

variable {g : Graph α} {options : Options α} {e e₁ e' : Engine α} {h h₁ h' : Host α}
  {batch : List (Sample α)} {front back : List (List (Sample α))} {losses later : List α}
  {fault : Error α}

theorem Course.append (hfront : Course e h front losses e₁ h₁)
    (hback : Course e₁ h₁ back later e' h') :
    Course e h (front ++ back) (losses ++ later) e' h' := by
  induction hfront with
  | nil => exact hback
  | cons hstep _ ih => exact .cons hstep (ih hback)

theorem Course.breaksOff (hfront : Course e h front losses e₁ h₁)
    (hback : e₁.BreaksOff h₁ back fault e' h') : e.BreaksOff h (front ++ back) fault e' h' := by
  obtain ⟨middle, batch, rest, later, e₂, h₂, rfl, hcourse, hstep⟩ := hback
  exact ⟨front ++ middle, batch, rest, losses ++ later, e₂, h₂, (List.append_assoc ..).symm,
    hfront.append hcourse, hstep⟩

theorem BreaksOff.append (hfront : e.BreaksOff h front fault e' h')
    (back : List (List (Sample α))) : e.BreaksOff h (front ++ back) fault e' h' := by
  obtain ⟨first, batch, rest, losses, e₁, h₁, rfl, hcourse, hstep⟩ := hfront
  exact ⟨first, batch, rest ++ back, losses, e₁, h₁, by simp, hcourse, hstep⟩

theorem Course.length_eq (hcourse : Course e h front losses e' h') :
    losses.length = front.length := by
  induction hcourse with
  | nil => rfl
  | cons _ _ ih => rw [List.length_cons, List.length_cons, ih]

theorem Course.run_eq (hcourse : Course e h front losses e' h') :
    e.run h (front.map .trainStep) = (e', h') := by
  induction hcourse with
  | nil => rfl
  | cons hstep _ ih => rw [List.map_cons, run, act, hstep, ih]

/-- Every call makes one update. -/
theorem Course.steps_eq (hcourse : Course e h front losses e' h') :
    e'.optimizer?.map Optimizer.steps = e.optimizer?.map (·.steps + front.length) := by
  induction hcourse with
  | nil => simp
  | @cons e e₁ e' h h₁ h' batch loss batches losses hstep _ ih =>
    have hone := steps_trainStep (congrArg Outcome.result hstep)
    rw [hstep] at hone
    rw [ih, List.length_cons]
    generalize e₁.optimizer? = o₁ at hone
    generalize e.optimizer? = o at hone
    cases o₁ <;> cases o <;> simp_all
    omega

theorem Reachable.trainStep {train : Bool} (he : Reachable g options train e)
    {result : Except (Error α) α} (hstep : e.trainStep h batch = ⟨result, e₁, h₁⟩) :
    Reachable g options train e₁ := by
  have hnext := he.act h (.trainStep batch)
  rwa [Engine.act, hstep] at hnext

theorem Course.reachable (hcourse : Course e h front losses e' h')
    (he : Reachable g options true e) : Reachable g options true e' := by
  induction hcourse with
  | nil => exact he
  | cons hstep _ ih => exact ih (he.trainStep hstep)

/-- A training call succeeds if the batch has a sample and all of its samples are accepted. -/
theorem exists_trainStep_iff (he : Reachable g options true e) (h : Host α)
    (batch : List (Sample α)) : (∃ x, (e.trainStep h batch).result = .ok x) ↔
      batch ≠ [] ∧ ∀ sample ∈ batch, g.Accepts sample := by
  obtain ⟨s, hs⟩ := sound_of_reachable he
  rw [result_trainStep]
  exact exists_accumulate_iff hs (isTrainable_of_reachable he) h batch

/-- The batches of calls that succeed are accepted. -/
theorem Course.accepts (hcourse : Course e h front losses e' h') (he : Reachable g options true e) :
    ∀ batch ∈ front, batch ≠ [] ∧ ∀ sample ∈ batch, g.Accepts sample := by
  induction hcourse with
  | nil => simp
  | @cons e e₁ e' h h₁ h' batch loss batches losses hstep _ ih =>
    have hfirst := (exists_trainStep_iff he h batch).1 ⟨loss, congrArg Outcome.result hstep⟩
    exact List.forall_mem_cons.2 ⟨hfirst, ih (he.trainStep hstep)⟩

end Engine

namespace Trainer

variable {e : Engine α} {h : Host α}

/-! ## The loops -/

/-- The calls of one epoch, with the sum of their losses from left to right. -/
theorem trainBatches_spec (e : Engine α) (h : Host α) (total : α)
    (batches : List (List (Sample α))) :
    match trainBatches e h total batches with
    | ⟨.ok sum, e', h'⟩ =>
      ∃ losses, e.Course h batches losses e' h' ∧ losses.foldl (· + ·) total = sum
    | ⟨.error fault, e', h'⟩ => e.BreaksOff h batches fault e' h' := by
  induction batches generalizing e h total with
  | nil => exact ⟨[], .nil, rfl⟩
  | cons batch batches ih =>
    rw [trainBatches]
    rcases hstep : e.trainStep h batch with ⟨fault | loss, e₁, h₁⟩
    · exact ⟨[], batch, batches, [], e, h, rfl, .nil, hstep⟩
    · have hrest := ih e₁ h₁ (total + loss)
      simp only
      generalize trainBatches e₁ h₁ (total + loss) batches = outcome at hrest ⊢
      obtain ⟨fault | sum, e', h'⟩ := outcome
      · exact (Engine.Course.cons hstep .nil).breaksOff hrest
      · obtain ⟨losses, hcourse, hsum⟩ := hrest
        exact ⟨loss :: losses, .cons hstep hcourse, hsum⟩

/-- The mean of some losses, which are summed from left to right. -/
def meanLoss (losses : List α) : α := losses.foldl (· + ·) 0 / (losses.length : α)

/-- The log of an epoch, by its number and the losses of its batches. -/
def logOf (losses : List α) (epoch : Nat) : EpochLog α :=
  { epoch, loss := meanLoss losses, batches := losses.length }

/-- The calls of some epochs, with a log for each. -/
theorem trainEpochs_spec (e : Engine α) (h : Host α) (batches : List (List (Sample α)))
    (epoch n : Nat) :
    match trainEpochs e h batches epoch n with
    | ⟨.ok logs, e', h'⟩ =>
      ∃ losses : List (List α), losses.length = n ∧ (∀ xs ∈ losses, xs.length = batches.length) ∧
        e.Course h (List.replicate n batches).flatten losses.flatten e' h' ∧
        logs = (losses.zipIdx epoch).map fun (xs, i) => logOf xs i
    | ⟨.error fault, e', h'⟩ => e.BreaksOff h (List.replicate n batches).flatten fault e' h' := by
  induction n generalizing e h epoch with
  | zero => exact ⟨[], rfl, by simp, .nil, rfl⟩
  | succ n ih =>
    have hbatches := trainBatches_spec e h 0 batches
    rw [trainEpochs, List.replicate_succ, List.flatten_cons]
    generalize trainBatches e h 0 batches = outcome at hbatches ⊢
    obtain ⟨fault | sum, e₁, h₁⟩ := outcome
    · exact hbatches.append _
    · obtain ⟨xs, hcourse, rfl⟩ := hbatches
      have hrest := ih e₁ h₁ (epoch + 1)
      simp only
      generalize trainEpochs e₁ h₁ batches (epoch + 1) n = outcome at hrest ⊢
      obtain ⟨fault | logs, e', h'⟩ := outcome
      · exact hcourse.breaksOff hrest
      · obtain ⟨losses, hlength, hall, hlater, rfl⟩ := hrest
        refine ⟨xs :: losses, by rw [List.length_cons, hlength],
          List.forall_mem_cons.2 ⟨hcourse.length_eq, hall⟩, hcourse.append hlater, ?_⟩
        rw [List.zipIdx_cons, List.map_cons, logOf, meanLoss, hcourse.length_eq]

/-! ## The run -/

/-- A run over all epochs: the training calls for the batches, epoch after epoch, with the losses
of each epoch and what is reported of them. -/
structure Completed (t : Trainer α) (h : Host α) (batches : List (List (Sample α)))
    (losses : List (List α)) (report : Report α) (e' : Engine α) (h' : Host α) : Prop where
  length_eq : losses.length = t.config.epochs
  lengths_eq : ∀ xs ∈ losses, xs.length = batches.length
  course : t.engine.Course h (List.replicate t.config.epochs batches).flatten losses.flatten e' h'
  run_eq : t.engine.run h ((List.replicate t.config.epochs batches).flatten.map .trainStep) =
    (e', h')
  logs_eq : report.epochs = losses.zipIdx.map fun (xs, i) => logOf xs i
  steps_eq : e'.optimizer?.map Optimizer.steps =
    t.engine.optimizer?.map (·.steps + t.config.epochs * batches.length)
  finalLoss?_eq : report.finalLoss? = losses.getLast?.map meanLoss
  finalLoss_eq : report.finalLoss = losses.getLast?.elim Scalar.nan meanLoss

/-- A run that stops at a batch of the first epoch: the training calls for the batches before it,
and the refusal of the batch for its first bad sample, which leaves no trace. -/
structure Interrupted (g : Graph α) (t : Trainer α) (h : Host α)
    (batches : List (List (Sample α))) (fault : Error α) (e' : Engine α) (h' : Host α)
    (front : List (List (Sample α))) (batch : List (Sample α)) (back : List (List (Sample α)))
    (losses : List α) (e₁ : Engine α) : Prop where
  split : batches = front ++ batch :: back
  accepts : ∀ other ∈ front, ∀ sample ∈ other, g.Accepts sample
  refuses : g.Refuses 0 batch fault
  course : t.engine.Course h front losses e₁ h'
  refused : e₁.trainStep h' batch = ⟨.error fault, e', h'⟩
  observe_eq : e'.observe g h' = e₁.observe g h'

variable {g : Graph α} {options : Options α} {t : Trainer α}

/-- Calls in a row that break off somewhere in the epochs do so at the first bad batch of the first
epoch: the batches before it are accepted in any epoch, and it is accepted in none. -/
theorem interrupted_of_breaksOff (he : Engine.Reachable g options true t.engine) {n : Nat}
    {batches : List (List (Sample α))} (hne : ∀ batch ∈ batches, batch ≠ []) {fault : Error α}
    {e' : Engine α} {h' : Host α}
    (hbreak : t.engine.BreaksOff h (List.replicate n batches).flatten fault e' h') :
    0 < n ∧ ∃ front batch back losses e₁,
      Interrupted g t h batches fault e' h' front batch back losses e₁ := by
  classical
  obtain ⟨front, batch, back, losses, e₁, h₁, hsplit, hcourse, hstep⟩ := hbreak
  have he₁ := hcourse.reachable he
  obtain ⟨s, hs⟩ := Engine.sound_of_reachable he₁
  have hmem : batch ∈ (List.replicate n batches).flatten := by rw [hsplit]; simp
  obtain ⟨epoch, hepoch, hbatch⟩ := List.mem_flatten.1 hmem
  obtain ⟨hn, rfl⟩ := List.mem_replicate.1 hepoch
  have hresult : (e₁.accumulate h₁ batch).result = .error fault := by
    rw [← Engine.result_trainStep, hstep]
  have hrefuses := Engine.refuses_of_accumulate hs (Engine.isTrainable_of_reachable he₁)
    (hne batch hbatch) hresult
  have hbad : ¬ ∀ sample ∈ batch, g.Accepts sample := by
    obtain ⟨first, bad, rest, rfl, -, hbad, -⟩ := hrefuses
    exact fun haccepts => hbad (haccepts bad (by simp))
  -- the first bad batch of an epoch is where the calls break off
  have hfirst : ∃ first, epoch.find? (fun batch => !decide (∀ sample ∈ batch, g.Accepts sample)) =
      some first := by
    rw [← Option.isSome_iff_exists, List.find?_isSome]
    exact ⟨batch, hbatch, by simpa using hbad⟩
  obtain ⟨first, hfirst⟩ := hfirst
  obtain ⟨hfirstBad, good, rest, hepochSplit, hgood⟩ := List.find?_eq_some_iff_append.1 hfirst
  have hreplicate : (List.replicate n epoch).flatten =
      good ++ first :: (rest ++ (List.replicate (n - 1) epoch).flatten) := by
    obtain ⟨m, rfl⟩ := Nat.exists_eq_succ_of_ne_zero hn
    rw [List.replicate_succ, List.flatten_cons, Nat.succ_sub_one]
    nth_rewrite 1 [hepochSplit]
    simp
  obtain ⟨rfl, rfl, -⟩ := append_cons_inj (P := fun batch => ∀ sample ∈ batch, g.Accepts sample)
    (hsplit.symm.trans hreplicate) (fun other hother => (hcourse.accepts he other hother).2) hbad
    (fun other hother => by simpa using hgood other hother) (by simpa using hfirstBad)
  have hfailed : (e₁.act h₁ (.trainStep batch)).1 = .failed fault := by
    rw [Engine.act, hstep]
    rfl
  obtain ⟨hhost, hrepacked⟩ := Engine.repacked_of_failed hfailed
  rw [Engine.act, hstep] at hhost hrepacked
  obtain rfl : h' = h₁ := hhost
  exact ⟨Nat.pos_of_ne_zero hn, front, batch, rest, losses, e₁, hepochSplit,
    fun other hother => (hcourse.accepts he other hother).2, hrefuses, hcourse, hstep,
    hrepacked.observe_eq g h'⟩

/-- The last log is that of the last losses. -/
theorem getLast?_logs (losses : List (List α)) :
    (losses.zipIdx.map fun (xs, i) => logOf xs i).getLast? =
      losses.getLast?.map fun xs => logOf xs (losses.length - 1) := by
  rw [List.getLast?_map, List.getLast?_zipIdx, Option.map_map]
  simp only [Function.comp_def, Nat.zero_add]

/-- A run over all epochs is completed by the calls that its loops make. -/
theorem completed_of_course {batches : List (List (Sample α))} {losses : List (List α)}
    {e' : Engine α} {h' : Host α} (hlength : losses.length = t.config.epochs)
    (hlengths : ∀ xs ∈ losses, xs.length = batches.length)
    (hcourse : t.engine.Course h (List.replicate t.config.epochs batches).flatten losses.flatten
      e' h') :
    t.Completed h batches losses (.ofLogs (losses.zipIdx.map fun (xs, i) => logOf xs i)) e' h'
    where
  length_eq := hlength
  lengths_eq := hlengths
  course := hcourse
  run_eq := hcourse.run_eq
  logs_eq := rfl
  steps_eq := by
    have hsteps := hcourse.steps_eq
    simpa using hsteps
  finalLoss?_eq := by
    rw [Report.finalLoss?, Report.ofLogs, getLast?_logs, Option.map_map]
    rfl
  finalLoss_eq := by
    rw [Report.ofLogs, getLast?_logs, Option.elim_map]
    rfl

/-- A run over data is completed or interrupted. -/
theorem train_spec (he : Engine.Reachable g options true t.engine)
    (hsize : 0 < t.config.batchSize) (h : Host α) {data : List (Sample α)} (hne : data ≠ []) :
    match t.train h data with
    | ⟨.ok report, e', h'⟩ =>
      ∃ losses, t.Completed h (batches t.config.batchSize data) losses report e' h'
    | ⟨.error fault, e', h'⟩ => 0 < t.config.epochs ∧ ∃ front batch back losses e₁,
      Interrupted g t h (batches t.config.batchSize data) fault e' h' front batch back losses
        e₁ := by
  have hepochs := trainEpochs_spec t.engine h (batches t.config.batchSize data) 0 t.config.epochs
  rw [train, if_neg (by simpa using hne)]
  generalize trainEpochs t.engine h (batches t.config.batchSize data) 0 t.config.epochs = outcome
    at hepochs ⊢
  obtain ⟨fault | logs, e', h'⟩ := outcome
  · exact interrupted_of_breaksOff he (fun batch => ne_nil_of_mem_batches hsize data) hepochs
  · obtain ⟨losses, hlength, hlengths, hcourse, rfl⟩ := hepochs
    exact ⟨losses, completed_of_course hlength hlengths hcourse⟩

/-- **A training run is a fold of training calls.** The batches are consecutive stretches of the
data, all as long as asked for except that the last may be shorter. A run that succeeds makes the
training calls for them, epoch after epoch, and reports for each epoch its number, the number of
its batches and their mean loss, summed from left to right; the loss of the run is that of the last
epoch. Without epochs it makes no call, and in double precision its loss is not a number. A run
fails exactly if there is no data, or at least one epoch and a bad sample. It then makes the
training calls for the batches before the first bad one, in the first epoch, and reports what the
call for this one reports, with everything that can be seen left as it was after those. -/
theorem train_folds_training_calls (he : Engine.Reachable g options true t.engine)
    (hsize : 0 < t.config.batchSize) (h : Host α) (data : List (Sample α)) :
    ((batches t.config.batchSize data).flatten = data ∧
      (batches t.config.batchSize data).length =
        (data.length + t.config.batchSize - 1) / t.config.batchSize ∧
      ∀ i < (batches t.config.batchSize data).length, (batches t.config.batchSize data)[i]? =
        some ((data.drop (i * t.config.batchSize)).take t.config.batchSize)) ∧
    (∀ report e' h', t.train h data = ⟨.ok report, e', h'⟩ →
      ∃ losses, t.Completed h (batches t.config.batchSize data) losses report e' h') ∧
    ((∃ fault, (t.train h data).result = .error fault) ↔
      data = [] ∨ 0 < t.config.epochs ∧ ∃ sample ∈ data, ¬ g.Accepts sample) ∧
    (data = [] → t.train h data = ⟨.error .emptyBatch, t.engine, h⟩) ∧
    (∀ fault e' h', data ≠ [] → t.train h data = ⟨.error fault, e', h'⟩ →
      ∃ front batch back losses e₁, Interrupted g t h (batches t.config.batchSize data) fault e' h'
        front batch back losses e₁) ∧
    (data ≠ [] → t.config.epochs = 0 →
      t.train h data = ⟨.ok { epochs := [], finalLoss := Scalar.nan }, t.engine, h⟩) ∧
    (Scalar.nan : Float).isNaN = true := by
  have hempty : data = [] → t.train h data = ⟨.error .emptyBatch, t.engine, h⟩ := by
    rintro rfl
    rw [train, if_pos List.isEmpty_nil]
  have hmem : ∀ sample, sample ∈ data ↔
      ∃ batch ∈ batches t.config.batchSize data, sample ∈ batch := fun sample => by
    rw [← List.mem_flatten, batches_flatten hsize]
  refine ⟨⟨batches_flatten hsize data, length_batches hsize data, fun i hi => ?_⟩,
    fun report e' h' htrain => ?_, ⟨?_, ?_⟩, hempty, fun fault e' h' hne htrain => ?_,
    fun hne hzero => ?_, Scalar.isNaN_nan⟩
  · have hsome := getElem?_batches hsize data i
    rw [List.getElem?_eq_getElem hi] at hsome ⊢
    split at hsome
    · exact hsome
    · contradiction
  · have hne : data ≠ [] := fun hnil => by simp [hempty hnil] at htrain
    have hspec := train_spec he hsize h hne
    rwa [htrain] at hspec
  · rintro ⟨fault, hfault⟩
    refine or_iff_not_imp_left.2 fun hne => ?_
    have hspec := train_spec he hsize h hne
    generalize t.train h data = outcome at hspec hfault
    obtain ⟨result, e', h'⟩ := outcome
    obtain rfl : result = .error fault := hfault
    obtain ⟨hepochs, front, batch, back, losses, e₁, hstop⟩ := hspec
    obtain ⟨good, bad, rest, hbatch, -, hbad, -⟩ := hstop.refuses
    refine ⟨hepochs, bad, (hmem bad).2 ⟨batch, ?_, ?_⟩, hbad⟩
    · rw [hstop.split]
      simp
    · rw [hbatch]
      simp
  · intro hfails
    rcases hok : (t.train h data).result with fault | report
    · exact ⟨fault, rfl⟩
    rcases hfails with hnil | ⟨hepochs, bad, hbad, hrefused⟩
    · simp [hempty hnil] at hok
    · have hspec := train_spec he hsize h (List.ne_nil_of_mem hbad)
      generalize t.train h data = outcome at hspec hok
      obtain ⟨result, e', h'⟩ := outcome
      obtain rfl : result = .ok report := hok
      obtain ⟨losses, hdone⟩ := hspec
      obtain ⟨batch, hbatch, hsample⟩ := (hmem bad).1 hbad
      have hran : batch ∈ (List.replicate t.config.epochs
          (batches t.config.batchSize data)).flatten :=
        List.mem_flatten.2 ⟨_, List.mem_replicate.2 ⟨hepochs.ne', rfl⟩, hbatch⟩
      exact absurd ((hdone.course.accepts he batch hran).2 bad hsample) hrefused
  · have hspec := train_spec he hsize h hne
    rw [htrain] at hspec
    exact hspec.2
  · rw [train, if_neg (by simpa using hne), hzero]
    rfl

theorem train_folds_training_calls_chain :
    ∃ (t : Trainer ℚ) (report : Report ℚ) (e' : Engine ℚ) (h' : Host ℚ),
      Engine.compile (.chain 0) .chain t.config.options true = .ok t.engine ∧
      t.config.epochs = 2 ∧ t.config.batchSize = 2 ∧
      t.train .chain [.chain, .chain, .chain] = ⟨.ok report, e', h'⟩ ∧
      e'.optimizer?.map Optimizer.steps = some 4 ∧
      ∃ fault, (t.train .chain [.chain, .chain, {}]).result = .error fault := by
  obtain ⟨e, hc, hrun⟩ := exists_eq_ok (x := Engine.compile (.chain 0) .chain .chain true)
    (f := fun e =>
      ((train ⟨e, ⟨2, 2, .chain⟩⟩ .chain [.chain, .chain, .chain]).result.toOption.isSome,
        e.optimizer?.map (·.steps + 2 * ((3 + 2 - 1) / 2))))
    (c := (true, some 4)) (by decide +kernel)
  obtain ⟨hok, hstart⟩ := Prod.mk.inj hrun
  have hall := train_folds_training_calls (t := ⟨e, ⟨2, 2, .chain⟩⟩) (.compile hc) Nat.zero_lt_two
    .chain
  rcases htrain : train ⟨e, ⟨2, 2, .chain⟩⟩ .chain [.chain, .chain, .chain] with
    ⟨fault | report, e', h'⟩
  · simp [htrain, Except.toOption] at hok
  obtain ⟨⟨-, hcount, -⟩, hdone, -⟩ := hall [.chain, .chain, .chain]
  obtain ⟨losses, hdone⟩ := hdone report e' h' htrain
  have hsteps := hdone.steps_eq
  rw [hcount] at hsteps
  have hbad : ¬ Graph.Accepts (.chain 0) ({} : Sample ℚ) := fun haccepts => by
    obtain ⟨entry, hentry, -⟩ := haccepts.inputs.covers 0 (by decide) (by decide)
    exact absurd hentry List.not_mem_nil
  obtain ⟨-, -, hfails, -⟩ := hall [.chain, .chain, {}]
  exact ⟨⟨e, ⟨2, 2, .chain⟩⟩, report, e', h', hc, rfl, rfl, htrain,
    hsteps.trans hstart, hfails.2 (.inr ⟨Nat.zero_lt_two, {}, by simp, hbad⟩)⟩

end Trainer

end GraphTape
