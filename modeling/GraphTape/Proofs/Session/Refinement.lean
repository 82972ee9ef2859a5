import GraphTape.Proofs.Session.Machine

/-!
# A session is its machine

Every event does to the parameters of a session what its commands say: to those of the engine it is
a call of, to the vectors of the host, and to nothing else. An engine with copies keeps them while
others work on the host, and an engine without has the vectors of the host at any time.

* `Session.Sound`: the invariant of a session.
* `Session.Leads`: what a call under a name changes of a session.
* `Session.Sound.machine_next`, `Session.Sound.machine_run`: one event, and a history.
-/

namespace GraphTape

variable {α : Type}

theorem Occupant.getEngine_withEngine (o : Occupant α) (e : Engine α) :
    (o.withEngine e).getEngine = e := by
  cases o <;> rfl

/-- The vectors of the host after a change of the elements in one cell. -/
theorem Graph.vectors_edit {g : Graph α} {h h' : Host α} {owner : Owner} {t : Tensor}
    (ht : g.tensor? owner = some t) {change : List α → List α}
    (hread : ∀ o u, g.tensor? o = some u → (h'.read u).toList =
      if t.cell = u.cell then change (h.read u).toList else (h.read u).toList) :
    g.vectors h' = fun o =>
      if g.storedWith owner o then change (g.vectors h o) else g.vectors h o := by
  funext o
  rw [vectors, vectors, storedWith, ht, Option.any_some]
  rcases hu : g.tensor? o with - | u
  · simp
  · simp only [Option.elim_some, Option.any_some, Tensor.sameStorage, beq_iff_eq]
    exact hread o u hu

/-- In a graph that an engine was compiled from, every parameter has its own storage. -/
theorem Graph.eq_of_storedWith {g : Graph α} (hg : g.Apart) {owner o : Owner}
    (hs : g.storedWith owner o = true) : owner = o := by
  rw [storedWith] at hs
  rcases ht : g.tensor? owner with - | t
  · simp [ht] at hs
  · rcases hu : g.tensor? o with - | u
    · simp [ht, hu] at hs
    · rw [ht, hu, Option.any_some, Option.any_some, Tensor.sameStorage] at hs
      exact hg owner o t u ht hu (eq_of_beq hs)

/-- The engine of a trainer is compiled for training. -/
theorem Trainer.compile_of_build [Scalar α] {g : Graph α} {h : Host α} {config : TrainConfig α}
    {t : Trainer α} (hb : build g h config = .ok t) :
    Engine.compile g h config.options true = .ok t.engine := by
  rw [build] at hb
  rcases hf : config.fault? with - | fault
  · rcases hc : Engine.compile g h config.options true with fault | e
    · simp [hf, hc] at hb
    · simp only [hf, hc] at hb
      rw [← Except.ok.inj hb]
  · simp [hf] at hb

/-- A compiled engine has the ownership that was asked for. -/
theorem Engine.ownership_of_compile [Scalar α] {g : Graph α} {h : Host α} {options : Options α}
    {train : Bool} {e : Engine α} (hc : compile g h options train = .ok e) :
    e.store.ownership = options.ownership := by
  obtain ⟨_, l, store, training, heq, -, hlayout, -⟩ := compile_spec hc
  obtain ⟨-, -, hplace, -⟩ := Layout.compile_spec hlayout
  obtain ⟨-, hcopy, hreference⟩ := Store.place_spec hplace
  rw [heq]
  show store.ownership = _
  cases hown : options.ownership with
  | copy => rw [hcopy hown, Store.ownership]
  | reference => rw [hreference hown, Store.ownership]

namespace Session

variable {s s' : Session α} {name : String} {o : Occupant α} {h : Host α}

/-! ## Names -/

theorem get?_put (s : Session α) (name : String) (o : Occupant α) (n : String) :
    (s.put name o).get? n = if n = name then some o else s.get? n := by
  rw [get?, get?, put, List.lookup_cons]
  by_cases heq : n = name
  · rw [if_pos heq, beq_iff_eq.2 heq]
  · have hne : (n == name) = false := beq_eq_false_iff_ne.2 heq
    rw [if_neg heq, hne]
    show List.lookup n (s.occupants.filter _) = _
    induction s.occupants with
    | nil => rfl
    | cons entry entries ih =>
      rw [List.filter_cons, List.lookup_cons]
      by_cases hentry : entry.1 = name
      · rw [if_neg (by simp [hentry]), hentry, hne, ih]
      · rw [if_pos (by simp [hentry]), List.lookup_cons, ih]

/-- `s'` is `s` with the occupant `o` under the name, next to the host `h`. -/
structure Leads (s : Session α) (name : String) (o : Occupant α) (h : Host α) (s' : Session α) :
    Prop where
  graph_eq : s'.graph = s.graph
  host_eq : s'.host = h
  get?_eq : ∀ n, s'.get? n = if n = name then some o else s.get? n

theorem leads_put (s : Session α) (name : String) (o : Occupant α) (h : Host α) :
    s.Leads name o h ({ s with host := h }.put name o) :=
  ⟨rfl, rfl, get?_put { s with host := h } name o⟩

theorem leads_of_get? (hs : s.get? name = some o) (h : Host α) :
    s.Leads name o h { s with host := h } := by
  refine ⟨rfl, rfl, fun n => ?_⟩
  split
  · rename_i heq
    exact heq ▸ hs
  · rfl

variable [Scalar α]

omit [Scalar α] in
theorem after_eq {β : Type} (s : Session α) (name : String) (o : Occupant α) (x : Outcome α β)
    (reply : β → Reply α) : s.after name o x reply =
      (.of reply x.result, { s with host := x.host }.put name (o.withEngine x.engine)) := by
  rw [after]
  cases x.result <;> rfl

/-- An answer to a request leaves the engine and the host that the calls of the engine leave. -/
theorem leads_serve (hs : s.get? name = some o) (r : Request α) : ∃ o',
    o'.getEngine = (o.getEngine.run s.host (o.actions s.host r)).1 ∧
      s.Leads name o' (o.getEngine.run s.host (o.actions s.host r)).2 (s.serve name o r).2 := by
  have hafter : ∀ {β : Type} (x : Outcome α β) (reply : β → Reply α),
      (o.withEngine x.engine).getEngine = x.engine ∧
        s.Leads name (o.withEngine x.engine) x.host (s.after name o x reply).2 := by
    intro β x reply
    rw [after_eq]
    exact ⟨o.getEngine_withEngine _, leads_put ..⟩
  cases r with
  | train data =>
    cases o with
    | engine e => exact ⟨_, rfl, leads_of_get? hs _⟩
    | trainer t =>
      refine ⟨(Occupant.trainer t).withEngine (t.train s.host data).engine, ?_⟩
      show _ = (t.engine.run s.host (t.actions s.host data)).1 ∧
        s.Leads name _ (t.engine.run s.host (t.actions s.host data)).2 _
      rw [t.run_actions]
      exact hafter (t.train s.host data) .report
  | intoCompiled =>
    cases o with
    | engine e => exact ⟨_, rfl, leads_of_get? hs _⟩
    | trainer t => exact ⟨_, rfl, leads_put s name (.engine t.engine) s.host⟩
  | forward sample =>
    exact ⟨_, hafter ⟨(o.getEngine.forward s.host sample).1,
      (o.getEngine.forward s.host sample).2, s.host⟩ .outputs⟩
  | evaluateMany samples => exact ⟨_, hafter ⟨_, o.getEngine, s.host⟩ .manyOutputs⟩
  | value n => exact ⟨_, hafter ⟨_, o.getEngine, s.host⟩ .vector⟩
  | trainStep batch => exact ⟨_, hafter (o.getEngine.trainStep s.host batch) .loss⟩
  | accumulate batch => exact ⟨_, hafter (o.getEngine.accumulate s.host batch) .loss⟩
  | apply => exact ⟨_, hafter (o.getEngine.apply s.host) fun _ => .done⟩
  | gradients | optimizer | params | layout => exact ⟨o, rfl, leads_of_get? hs s.host⟩
  | weight edge => exact ⟨_, hafter ⟨_, o.getEngine, s.host⟩ .vector⟩
  | bias n => exact ⟨_, hafter ⟨_, o.getEngine, s.host⟩ .vector?⟩
  | sync => exact ⟨o, rfl, leads_of_get? hs _⟩
  | reload => exact ⟨_, o.getEngine_withEngine _, leads_put s name _ s.host⟩

/-! ## The invariant -/

/-- The tensors of the graph are allocated, and every engine is placed next to the host. -/
structure Sound (s : Session α) : Prop where
  hosted : s.graph.HostedBy s.host
  placed : ∀ name o, s.get? name = some o →
    ∃ (schedule : Schedule) (options : Options α),
      o.getEngine.Placed s.graph schedule options s.host

theorem shares_machine (ho : s.get? name = some o) :
    s.machine.shares name = some (o.getEngine.share s.host) :=
  congrArg (Option.map _) ho

/-- The machine of a session after the call under a name. -/
theorem Leads.machine_eq (hl : s.Leads name o h s') : s'.machine =
    { host := s.graph.vectors h
      shares := Function.update s.machine.shares name (some (o.getEngine.share h)) } := by
  obtain ⟨hgraph, hhost, hget⟩ := hl
  rw [machine, hgraph, hhost, Machine.mk.injEq]
  refine ⟨rfl, funext fun n => ?_⟩
  rw [hget, Function.update_apply]
  split
  · rfl
  · rw [machine]
    exact congrArg (Option.map · _) (funext fun o => o.getEngine.share_rehost s.host h)

namespace Sound

/-- The invariant is kept when an engine is placed next to the host that is left. -/
theorem of_leads (hs : s.Sound) {schedule : Schedule} {options : Options α}
    (hp : o.getEngine.Placed s.graph schedule options h) (hl : s.Leads name o h s') : s'.Sound := by
  obtain ⟨hgraph, hhost, hget⟩ := hl
  refine ⟨by rw [hgraph, hhost]; exact hp.store.hosted, fun n o' ho' => ?_⟩
  rw [hget] at ho'
  rw [hgraph, hhost]
  split at ho'
  · obtain rfl := Option.some.inj ho'
    exact ⟨schedule, options, hp⟩
  · obtain ⟨schedule', options', hp'⟩ := hs.placed n o' ho'
    exact ⟨schedule', options', hp'.rehost hp.store.hosted⟩

/-- A compiled engine is put under a name, with the vectors of the host. -/
theorem machine_of_compile (hs : s.Sound) {options : Options α} {train : Bool}
    (hc : Engine.compile s.graph s.host options train = .ok o.getEngine) :
    (s.put name o).Sound ∧
      (s.put name o).machine = s.machine.step (.place name options.ownership) := by
  obtain ⟨schedule, hp, hcurrent⟩ := Engine.placed_of_compile hc hs.hosted
  have hl := leads_put s name o s.host
  refine ⟨hs.of_leads hp hl, hl.machine_eq.trans ?_⟩
  rw [Engine.share, Engine.ownership_of_compile hc, ← hp.store.toServes.vectors_eq hp.fits hcurrent]
  rfl

/-- A request does to the parameters what its effects say. -/
theorem machine_serve (hs : s.Sound) (ho : s.get? name = some o) (r : Request α) :
    (s.serve name o r).2.Sound ∧ (s.serve name o r).2.machine =
      s.machine.run ((o.getEngine.effects s.host (o.actions s.host r)).map (.effect name)) := by
  obtain ⟨schedule, options, hp⟩ := hs.placed name o ho
  obtain ⟨o', hengine, hl⟩ := leads_serve ho r
  have hplaced := hp.run (o.actions s.host r)
  have hrefines := hp.run_refines (o.actions s.host r)
  rw [← hengine] at hplaced hrefines
  refine ⟨hs.of_leads hplaced hl, hl.machine_eq.trans ?_⟩
  rw [Machine.run_effects (shares_machine ho), machine, ← hrefines]

/-- Another host, whose tensors are as long, takes the place of that of the session. -/
theorem rehost (hs : s.Sound) (hh : s.graph.HostedBy h) :
    ({ s with host := h } : Session α).Sound ∧ ({ s with host := h } : Session α).machine =
      { s.machine with host := s.graph.vectors h } := by
  refine ⟨⟨hh, fun n o ho => ?_⟩, ?_⟩
  · obtain ⟨schedule, options, hp⟩ := hs.placed n o ho
    exact ⟨schedule, options, hp.rehost hh⟩
  · rw [machine, machine, Machine.mk.injEq]
    refine ⟨rfl, funext fun n => ?_⟩
    exact congrArg (Option.map · _) (funext fun o => o.getEngine.share_rehost s.host h)

/-- An edit changes the vectors of the host that share the storage of its parameter. -/
theorem machine_edit (hs : s.Sound) (owner : Owner) (edit : Edit α) :
    (s.edit owner edit).2.Sound ∧ (s.edit owner edit).2.machine =
      s.machine.step (.edit (s.graph.storedWith owner) edit.change) := by
  rw [Session.edit]
  rcases ht : s.graph.tensor? owner with - | t
  · refine ⟨hs, ?_⟩
    have hnone : ∀ o, s.graph.storedWith owner o = false := fun o => by
      rw [Graph.storedWith, ht, Option.any_none]
    simp only [Machine.step, hnone, Bool.false_eq_true, if_false]
  · -- what is left is a host with the vectors that the edit asks for
    have hchanged : ∀ h', s.graph.HostedBy h' →
        (∀ o u, s.graph.tensor? o = some u → (h'.read u).toList =
          if t.cell = u.cell then edit.change (s.host.read u).toList
          else (s.host.read u).toList) →
        ({ s with host := h' } : Session α).Sound ∧ ({ s with host := h' } : Session α).machine =
          s.machine.step (.edit (s.graph.storedWith owner) edit.change) := by
      intro h' hh hread
      obtain ⟨hsound, hmachine⟩ := hs.rehost hh
      refine ⟨hsound, hmachine.trans ?_⟩
      rw [Graph.vectors_edit ht hread]
      rfl
    have hcell : ∀ {u : Tensor}, t.cell = u.cell → s.host.read u = s.host.read t := by
      intro u heq
      rw [Host.read, Host.read, heq]
    cases edit with
    | read => exact hchanged s.host hs.hosted fun o u hu => by rw [Edit.change, ite_self]
    | assign values =>
      simp only [Host.assign]
      by_cases hsize : values.size = (s.host.read t).size
      · simp only [hsize, if_true]
        refine hchanged _ (hs.hosted.modify t hsize) fun o u hu => ?_
        rw [Host.read_modify _ _ (hs.hosted.cell_lt o u hu)]
        split
        · rename_i heq
          rw [Edit.change, hcell heq, Array.length_toList, if_pos hsize]
        · rfl
      · simp only [hsize, if_false]
        refine hchanged s.host hs.hosted fun o u hu => ?_
        split
        · rename_i heq
          rw [Edit.change, hcell heq, Array.length_toList, if_neg hsize]
        · rfl
    | set i x =>
      refine hchanged _ (hs.hosted.modify t (Array.size_setIfInBounds ..)) fun o u hu => ?_
      rw [Host.set, Host.read_modify _ _ (hs.hosted.cell_lt o u hu)]
      split
      · rw [Edit.change, Array.toList_setIfInBounds]
      · rfl

/-- Every event does to the parameters what its commands say. -/
theorem machine_next (hs : s.Sound) (event : Event α) :
    (s.next event).2.Sound ∧ (s.next event).2.machine = s.machine.run (s.commands event) := by
  cases event with
  | edit owner edit => exact hs.machine_edit owner edit
  | call name c =>
    cases c with
    | compile options train =>
      rw [next, perform, commands]
      rcases hc : Engine.compile s.graph s.host options train with fault | e
      · exact ⟨hs, rfl⟩
      · exact hs.machine_of_compile (o := .engine e) hc
    | makeTrainer config =>
      rw [next, perform, commands]
      rcases hb : Trainer.build s.graph s.host config with fault | t
      · exact ⟨hs, rfl⟩
      · exact hs.machine_of_compile (o := .trainer t) (Trainer.compile_of_build hb)
    | request r =>
      rw [next, perform, commands]
      rcases ho : s.get? name with - | o
      · exact ⟨hs, rfl⟩
      · exact hs.machine_serve ho r

/-- A history does to the parameters what its commands say, one after the other. -/
theorem machine_run (hs : s.Sound) (events : List (Event α)) :
    (s.run events).Sound ∧ (s.run events).machine = s.machine.run (s.script events) := by
  induction events generalizing s with
  | nil => exact ⟨hs, rfl⟩
  | cons event events ih =>
    obtain ⟨hnext, hmachine⟩ := hs.machine_next event
    obtain ⟨hsound, hrun⟩ := ih hnext
    refine ⟨hsound, hrun.trans ?_⟩
    rw [script, Machine.run, Machine.run, List.foldl_append, hmachine, Machine.run]

/-- The parameters that can be read of an engine are those that the machine has under its name. -/
theorem params?_eq (hs : s.Sound) (ho : s.get? name = some o) : ∃ P,
    s.machine.params? name = some P ∧
      o.getEngine.params s.host = s.graph.owners.map fun p => (p, P p) := by
  obtain ⟨schedule, options, hp⟩ := hs.placed name o ho
  refine ⟨o.getEngine.store.vectors o.getEngine.layout s.host, ?_, ?_⟩
  · rw [Machine.params?, shares_machine ho]
    exact congrArg some hp.params_share
  · rw [Engine.params, hp.fits.params, List.map_map]
    rfl

/-- A call that does anything to the parameters leaves its engine with the vectors of the host. -/
theorem params?_next (hs : s.Sound) {c : Call α} (hc : s.commands (.call name c) ≠ []) :
    (s.next (.call name c)).2.machine.params? name =
      some (s.next (.call name c)).2.machine.host := by
  rw [(hs.machine_next (.call name c)).2]
  cases c with
  | compile options train =>
    rw [commands] at hc ⊢
    rcases hcompile : Engine.compile s.graph s.host options train with fault | e
    · simp [hcompile] at hc
    · exact s.machine.params?_place name _
  | makeTrainer config =>
    rw [commands] at hc ⊢
    rcases hbuild : Trainer.build s.graph s.host config with fault | t
    · simp [hbuild] at hc
    · exact s.machine.params?_place name _
  | request r =>
    rw [commands] at hc ⊢
    rcases ho : s.get? name with - | o
    · simp [ho] at hc
    · rw [ho] at hc
      refine Machine.params?_effects (shares_machine ho) fun hnil => hc ?_
      simp only [hnil, List.map_nil]

end Sound

end Session

end GraphTape
