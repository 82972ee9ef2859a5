import GraphTape.Proofs.Engine.Forward

/-!
# Training of alike graphs

Two alike graphs are given layouts with the same flat offsets. Runs of their tapes on equal
parameters, inputs and targets leave equal gradients, losses and node values, and an update from
equal gradients leaves equal parameters and optimizer state. Where the parameters are stored, and
where the banks keep the values of a node, may differ.

* `Layout.Matches`: the layouts.
* `Env.Agrees`, `Work.Agrees`, `agrees_of_trained`: one sample.
* `Update.Agrees`, `Update.Agrees.stepOptimizer`: one update.
-/

namespace GraphTape

variable {α : Type}

/-- Layouts of two alike graphs with the same flat offsets. -/
structure Layout.Matches (g g' : Graph α) (l l' : Layout) : Prop where
  alike : g.Alike g'
  left : l.Fits g
  right : l'.Fits g'
  paramLen_eq : l.paramLen = l'.paramLen
  flat_eq : ∀ o, (g.tensor? o).isSome = true → (l.slotOf o).flat = (l'.slotOf o).flat

variable [Scalar α] {g g' : Graph α} {l l' : Layout}

namespace Layout.Matches

omit [Scalar α] in
theorem len_eq (hm : l.Matches g g' l') {o : Owner} (ho : (g.tensor? o).isSome = true) :
    (l.slotOf o).len = (l'.slotOf o).len := by
  rw [hm.left.len_eq ho, hm.right.len_eq (hm.alike.isSome_tensor?_eq o ▸ ho), hm.alike.extent_eq]

omit [Scalar α] in
theorem inputs_outline (hm : l.Matches g g' l') :
    l.nodes.map (Region.inputs : Region α).outline =
      l'.nodes.map (Region.inputs : Region α).outline := by
  rw [outline_eq hm.left hm.left.inputs, outline_eq hm.right hm.right.inputs, hm.alike.nodeIds_eq,
    hm.alike.width_eq, hm.alike.isSource_eq]

omit [Scalar α] in
theorem targets_outline (hm : l.Matches g g' l') (j : Nat) :
    l.nodes.map (Region.targets j : Region α).outline =
      l'.nodes.map (Region.targets j : Region α).outline := by
  rw [outline_eq hm.left (hm.left.targets j), outline_eq hm.right (hm.right.targets j),
    hm.alike.nodeIds_eq, hm.alike.width_eq, hm.alike.isOutput_eq]

/-- Parameters that are current on equal host tensors are equal. -/
theorem view_eq (hm : l.Matches g g' l') {st st' : Store α} {h h' : Host α}
    (hc : st.Current g l h) (hc' : st'.Current g' l' h')
    (heq : ∀ o t t', g.tensor? o = some t → g'.tensor? o = some t' → h.read t = h'.read t')
    {o : Owner} (ho : (g.tensor? o).isSome = true) {i : Nat} (hi : i < g.extent o) :
    st.view h (l.slotOf o) i = st'.view h' (l'.slotOf o) i := by
  obtain ⟨t, ht⟩ := Option.isSome_iff_exists.1 ho
  obtain ⟨t', ht'⟩ := Option.isSome_iff_exists.1 (hm.alike.isSome_tensor?_eq o ▸ ho)
  rw [hc o t ht i hi, hc' o t' ht' i (hm.alike.extent_eq ▸ hi), heq o t t' ht ht']

/-- Flat vectors are equal if they are equal parameter by parameter. -/
theorem eq_of_view_flat (hm : l.Matches g g' l') {b b' : Buffer α} (hb : b.size = l.paramLen)
    (hb' : b'.size = l'.paramLen) (h : ∀ o, (g.tensor? o).isSome = true → ∀ i < g.extent o,
      b.view (l.slotOf o).flat i = b'.view (l'.slotOf o).flat i) : b = b' := by
  refine Buffer.ext_view (hb.trans (hm.paramLen_eq.trans hb'.symm)) fun k hk => ?_
  obtain ⟨o, ho, hle, hlt⟩ := hm.left.flat_cover k (hb ▸ hk)
  rw [hm.left.len_eq ho] at hlt
  have hview := h o ho (k - (l.slotOf o).flat) (by omega)
  rw [← hm.flat_eq o ho] at hview
  simp only [Buffer.view] at hview ⊢
  rwa [show (l.slotOf o).flat + (k - (l.slotOf o).flat) = 0 + k by omega] at hview

end Layout.Matches

/-! ## One sample -/

/-- Two runs read the same parameters, inputs and targets. -/
structure Env.Agrees (g : Graph α) (l l' : Layout) (env env' : Env α) : Prop where
  params : ∀ o, (g.tensor? o).isSome = true → ∀ i < g.extent o,
    env.params (l.slotOf o) i = env'.params (l'.slotOf o) i
  input : ∀ n < g.numNodes, g.isSource n = true → ∀ i < g.width n,
    env.input (l.inputAt n + i) = env'.input (l'.inputAt n + i)
  target : ∀ n < g.numNodes, g.isOutput n = true → ∀ i < g.width n,
    env.target (l.targetAt n + i) = env'.target (l'.targetAt n + i)

namespace Env.Agrees

variable {env env' : Env α}

theorem setting (h : env.Agrees g l l' env') (hm : l.Matches g g' l') :
    Graph.Setting.Agree g (l.setting g env) (l'.setting g' env') := by
  rw [Layout.setting, Layout.setting, ← hm.alike.setting_eq]
  exact Graph.agree_setting h.params h.input

theorem value_eq (h : env.Agrees g l l' env') (hm : l.Matches g g' l') (hg : g.Acyclic)
    (hg' : g'.Acyclic) {n : Nat} (hn : n < g.numNodes) {i : Nat} (hi : i < g.width n) :
    Graph.value (l.setting g env) hg n i = Graph.value (l'.setting g' env') hg' n i := by
  rw [← hm.alike.value_eq _ hg hg']
  exact Graph.value_congr (h.setting hm) hg hn hi

theorem delta_eq (h : env.Agrees g l l' env') (hm : l.Matches g g' l') (loss : Loss)
    (hg : g.Acyclic) (hg' : g'.Acyclic) {n : Nat} (hn : n < g.numNodes) {i : Nat}
    (hi : i < g.width n) : Graph.delta (l.setting g env) loss (l.targets env) hg n i =
      Graph.delta (l'.setting g' env') loss (l'.targets env') hg' n i := by
  rw [← hm.alike.delta_eq _ loss _ hg hg']
  exact Graph.delta_congr (h.setting hm) h.target hg hn hi

end Env.Agrees

/-- Two runs hold the same gradients, losses and node values. -/
structure Work.Agrees (g : Graph α) (l l' : Layout) (w w' : Work α) : Prop where
  grads_eq : w.grads = w'.grads
  loss_eq : w.loss = w'.loss
  value_eq : ∀ n < g.numNodes, ∀ i < g.width n,
    w.banks.value.view (l.dataAt n) i = w'.banks.value.view (l'.dataAt n) i

/-- Training on samples that agree adds equal gradients and equal losses. -/
theorem agrees_of_trained {env env' : Env α} {loss : Loss} {hg : g.Acyclic} {hg' : g'.Acyclic}
    {w w' s s' : Work α} (hm : l.Matches g g' l') (henv : env.Agrees g l l' env')
    (hsettle : Linearizes (Function.swap g.Feeds) g.numNodes g.settle.1)
    (h : Trained env l loss hg w s) (h' : Trained env' l' loss hg' w' s')
    (hsize : w.grads.size = l.paramLen) (hgrads : w.grads = w'.grads)
    (hloss : w.loss = w'.loss) :
    s.Agrees g l l' s' where
  grads_eq := by
    have hsize' : w'.grads.size = l'.paramLen := by rw [← hgrads, hsize, hm.paramLen_eq]
    refine hm.eq_of_view_flat (h.grads_size.trans hsize) (h'.grads_size.trans hsize')
      fun o ho i hi => ?_
    have ho' := hm.alike.isSome_tensor?_eq o ▸ ho
    rw [h.grads o ho i hi, h'.grads o ho' i (hm.alike.extent_eq ▸ hi), hgrads, hm.flat_eq o ho,
      ← hm.alike.contribution_eq]
    refine congrArg (_ + ·) (Graph.contribution_congr ho hi (fun p hp r hr => ?_) fun c hc => ?_)
    · exact henv.value_eq hm hg hg' hp.lt.1 hr
    · exact henv.delta_eq hm loss hg hg' (Graph.sink_lt ho) hc
  loss_eq := by
    rw [h.loss_eq, h'.loss_eq, hloss, ← hm.alike.settle_eq, ← hm.alike.addLoss_eq]
    refine List.foldl_ext _ _ _ fun total n hn => ?_
    have hlt := (hsettle.mem_iff n).1 hn
    exact Graph.addLoss_congr (fun i hi => henv.value_eq hm hg hg' hlt hi)
      (fun hisout i hi => henv.target n hlt hisout i hi) total
  value_eq n hn i hi := by
    rw [h.value n hn i hi,
      h'.value n (hm.alike.numNodes_eq ▸ hn) i (hm.alike.width_eq ▸ hi)]
    exact henv.value_eq hm hg hg' hn hi

/-! ## Batches -/

namespace Engine

variable {s : Schedule} {options : Options α} {k k' : Training α}

/-- Training on batches that agree adds equal gradients and equal losses. -/
theorem agrees_runSamples (hm : l.Matches g g' l') (hs : g.schedule = .ok s)
    (hshape : g.shapeFault? = none) (hk : k.Sound g s l options) (hk' : k'.Sound g' s l' options)
    {params params' : Slot → Nat → α}
    {inputs targets inputs' targets' : Buffer α} {w w' : Work α}
    (hroom : w.banks.Room l .training) (hroom' : w'.banks.Room l' .training)
    (hsize : w.grads.size = l.paramLen) (hw : w.Agrees g l l' w') (n : Nat)
    (henv : ∀ j < n, (sampleEnv l params inputs targets j).Agrees g l l'
      (sampleEnv l' params' inputs' targets' j)) :
    (runSamples k l params inputs targets n w).Agrees g l l'
      (runSamples k' l' params' inputs' targets' n w') := by
  have hs' : g'.schedule = .ok s := hm.alike.schedule_eq ▸ hs
  have hshape' : g'.shapeFault? = none := hm.alike.shapeFault?_eq ▸ hshape
  have hsize' : w'.grads.size = l'.paramLen := by rw [← hw.grads_eq, hsize, hm.paramLen_eq]
  induction n with
  | zero => exact hw
  | succ n ih =>
    have hprior := ih fun j hj => henv j (Nat.lt_succ_of_lt hj)
    obtain ⟨hroom₁, hsize₁⟩ :=
      room_runSamples params inputs targets hs hshape hm.left hk hroom hsize n
    obtain ⟨hroom₁', hsize₁'⟩ :=
      room_runSamples params' inputs' targets' hs' hshape' hm.right hk' hroom' hsize' n
    obtain ⟨t, htrained, hrun⟩ := runSample_spec params inputs targets hs hshape hm.left
      (Graph.acyclic_of_schedule hs) hk hroom₁ hsize₁ n
    obtain ⟨t', htrained', hrun'⟩ := runSample_spec params' inputs' targets' hs' hshape' hm.right
      (Graph.acyclic_of_schedule hs') hk' hroom₁' hsize₁' n
    have hagrees := agrees_of_trained hm (henv n (Nat.lt_succ_self n))
      (Graph.linearizes_settle (Tape.reverse_spec hk.backward).2.1) htrained htrained'
      hsize₁ hprior.grads_eq rfl
    rw [runSamples_succ, runSamples_succ, hrun, hrun']
    exact
      { grads_eq := hagrees.grads_eq
        loss_eq := by
          show _ + t.loss = _ + t'.loss
          rw [hprior.loss_eq, hagrees.loss_eq]
        value_eq := hagrees.value_eq }

/-- Batches that are packed agree in every sample. -/
theorem agrees_packBatch (hm : l.Matches g g' l') {params params' : Slot → Nat → α}
    (hparams : ∀ o, (g.tensor? o).isSome = true → ∀ i < g.extent o,
      params (l.slotOf o) i = params' (l'.slotOf o) i)
    {batch : List (Sample α)} {inputs targets inputs' targets' : Buffer α}
    (h : l.packBatch 0 batch (.zeros (batch.length * l.inputLen))
      (.zeros (batch.length * l.targetLen)) = (none, inputs, targets))
    (h' : l'.packBatch 0 batch (.zeros (batch.length * l'.inputLen))
      (.zeros (batch.length * l'.targetLen)) = (none, inputs', targets')) {j : Nat}
    (hj : j < batch.length) :
    (sampleEnv l params inputs targets j).Agrees g l l'
      (sampleEnv l' params' inputs' targets' j) := by
  obtain ⟨hinputs, htargets⟩ := Layout.packBatch_spec hm.left
    (by rw [Buffer.size_zeros, Nat.zero_add]) (by rw [Buffer.size_zeros, Nat.zero_add]) h
  obtain ⟨hinputs', htargets'⟩ := Layout.packBatch_spec hm.right
    (by rw [Buffer.size_zeros, Nat.zero_add]) (by rw [Buffer.size_zeros, Nat.zero_add]) h'
  have hget : ∀ {β : Type} (f : Sample α → β), (batch.map f)[j]? = some (f batch[j]) := fun f => by
    rw [List.getElem?_map, List.getElem?_eq_getElem hj, Option.map_some]
  replace hinputs := hinputs.view (hget Sample.inputs)
  replace hinputs' := hinputs'.view (hget Sample.inputs)
  replace htargets := htargets.view (hget Sample.targets)
  replace htargets' := htargets'.view (hget Sample.targets)
  rw [← hm.alike.numNodes_eq, ← hm.alike.isSource_eq, ← hm.alike.width_eq] at hinputs'
  rw [← hm.alike.numNodes_eq, ← hm.alike.isOutput_eq, ← hm.alike.width_eq] at htargets'
  rw [Nat.zero_add] at hinputs hinputs' htargets htargets'
  exact ⟨hparams,
    fun n hn hsource i hi => (hinputs n hn hsource i hi).trans (hinputs' n hn hsource i hi).symm,
    fun n hn hisout i hi => (htargets n hn hisout i hi).trans (htargets' n hn hisout i hi).symm⟩

end Engine

/-! ## Updates -/

/-- Two updates are at the same point: the parameters and the optimizer state are equal. -/
structure Update.Agrees (g g' : Graph α) (l l' : Layout) (u u' : Update α) : Prop where
  left : u.store.Serves g l u.host
  right : u'.store.Serves g' l' u'.host
  live_eq : ∀ o, (g.tensor? o).isSome = true → ∀ i < g.extent o,
    u.store.view u.host (l.slotOf o) i = u'.store.view u'.host (l'.slotOf o) i
  aux_eq : u.aux = u'.aux

namespace Update.Agrees

variable {u u' : Update α}

/-- Updates that agree do so after the same change of one parameter. -/
theorem update (hu : u.Agrees g g' l l' u') (hm : l.Matches g g' l') {o : Owner}
    (ho : (g.tensor? o).isSome = true) (f : Nat → α → α) {aux aux' : Buffer α}
    (haux : aux = aux') :
    Update.Agrees g g' l l'
      { store := (u.store.update u.host (l.slotOf o) f).1,
        host := (u.store.update u.host (l.slotOf o) f).2, aux }
      { store := (u'.store.update u'.host (l'.slotOf o) f).1,
        host := (u'.store.update u'.host (l'.slotOf o) f).2, aux := aux' } := by
  have hsome : ∀ p, (g.tensor? p).isSome = true → (g'.tensor? p).isSome = true :=
    fun p hp => hm.alike.isSome_tensor?_eq p ▸ hp
  obtain ⟨hserves, hself, hother⟩ := hu.left.update hm.left ho f
  obtain ⟨hserves', hself', hother'⟩ := hu.right.update hm.right (hsome o ho) f
  rw [← hm.alike.extent_eq] at hself' hother'
  refine ⟨hserves, hserves', fun p hp i hi => ?_, haux⟩
  by_cases heq : p = o
  · subst heq
    show (u.store.update u.host (l.slotOf p) f).1.view _ (l.slotOf p) i = _
    rw [hself i hi, hu.live_eq p hp i hi]
    exact (hself' i hi).symm
  · show (u.store.update u.host (l.slotOf o) f).1.view _ (l.slotOf p) i = _
    rw [hother p hp heq i hi, hu.live_eq p hp i hi]
    exact (hother' p (hsome p hp) heq i hi).symm

theorem descendSlot (hu : u.Agrees g g' l l' u') (hm : l.Matches g g' l') {o : Owner}
    (ho : (g.tensor? o).isSome = true) (lr : α) (grads : Buffer α) :
    (GraphTape.descendSlot lr grads u (l.slotOf o)).Agrees g g' l l'
      (GraphTape.descendSlot lr grads u' (l'.slotOf o)) := by
  rw [GraphTape.descendSlot, GraphTape.descendSlot, ← hm.flat_eq o ho]
  exact hu.update hm ho _ hu.aux_eq

theorem updateSlot (hu : u.Agrees g g' l l' u') (hm : l.Matches g g' l') {o : Owner}
    (ho : (g.tensor? o).isSome = true) (config : AdamConfig α) (t : Nat) (grads : Buffer α) :
    (config.updateSlot t grads u (l.slotOf o)).Agrees g g' l l'
      (config.updateSlot t grads u' (l'.slotOf o)) := by
  rw [AdamConfig.updateSlot, AdamConfig.updateSlot, ← hm.flat_eq o ho, ← hm.len_eq ho,
    ← hu.aux_eq]
  exact hu.update hm ho _ rfl

/-- A pass over all parameters keeps the agreement if every change of one parameter does. -/
theorem foldl_slots (hu : u.Agrees g g' l l' u') (hm : l.Matches g g' l')
    {change : Update α → Slot → Update α}
    (h : ∀ o, (g.tensor? o).isSome = true → ∀ v v' : Update α, v.Agrees g g' l l' v' →
      (change v (l.slotOf o)).Agrees g g' l l' (change v' (l'.slotOf o))) :
    (l.slots.foldl change u).Agrees g g' l l' (l'.slots.foldl change u') := by
  rw [Layout.slots, Layout.slots, hm.left.params, hm.right.params, ← hm.alike.owners_eq]
  simp only [List.map_map, List.foldl_map, Function.comp_apply]
  exact List.foldl_rel hu fun o ho v v' hv => h o (Graph.mem_owners.1 ho) v v' hv

theorem step (hu : u.Agrees g g' l l' u') (hm : l.Matches g g' l') (r : Rule α)
    (grads : Buffer α) : (r.step l.slots grads u).1 = (r.step l'.slots grads u').1 ∧
      (r.step l.slots grads u).2.Agrees g g' l l' (r.step l'.slots grads u').2 := by
  cases r with
  | sgd lr => exact ⟨rfl, hu.foldl_slots hm fun o ho v v' hv => hv.descendSlot hm ho lr grads⟩
  | adam config t =>
    exact ⟨rfl, hu.foldl_slots hm fun o ho v v' hv => hv.updateSlot hm ho config (t + 1) grads⟩

end Update.Agrees

end GraphTape
