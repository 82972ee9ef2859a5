import GraphTape.Proofs.Session.Refinement

/-!
# What an engine can learn of a session

An engine with copies of its parameters meets the rest of a session in the vectors of the host, and
reads these when it is compiled and when it reloads. Two sessions of one graph, in which the same
calls are made under a name and find the same vectors of the host whenever they read them, give
the same replies under that name, whatever other engines and edits do in between.

* `Session.transcript`: the calls under a name with what they read and the replies.
* `Session.Matched`: two sessions that cannot be told apart under a name.
* `Session.sessions_share_through_host`: the machine of a session, and the privacy of copies.
-/

namespace GraphTape

variable {α : Type}

/-- Whether a call reads the vectors of the host for an engine with copies. -/
def Call.readsHost : Call α → Bool
  | .compile .. | .makeTrainer _ | .request .reload => true
  | .request _ => false

namespace Session

/-- The call that an event is under a name, if it is one. -/
def Event.call? (name : String) : Event α → Option (Call α)
  | .call n c => if n = name then some c else none
  | .edit .. => none

theorem Event.eq_call {name : String} {event : Event α} {c : Call α}
    (he : event.call? name = some c) : event = .call name c := by
  cases event with
  | edit => contradiction
  | call n c' =>
    rw [call?] at he
    split at he
    · rename_i hn
      rw [hn, Option.some.inj he]
    · contradiction

/-- A call under a name, the vectors of the host if it reads them, and the reply. -/
structure Entry (α : Type) where
  call : Call α
  host? : Option (Vectors α)
  reply : Reply α

/-- A call with what it reads of the host. -/
def Entry.seen (x : Entry α) : Call α × Option (Vectors α) := (x.call, x.host?)

/-- The ownership of the engine that a call has put under its name, if it has. -/
def Entry.placed? (x : Entry α) : Option Ownership :=
  match x.call, x.reply with
  | .compile options _, .compiled _ => some options.ownership
  | .makeTrainer config, .trainer _ => some config.options.ownership
  | _, _ => none

variable [Scalar α]

/-- The entry of a call. -/
def entry (s : Session α) (name : String) (c : Call α) : Entry α :=
  { call := c
    host? := if c.readsHost then some (s.graph.vectors s.host) else none
    reply := (s.perform name c).1 }

/-- The entries of the calls under a name. -/
def transcript (s : Session α) (name : String) : List (Event α) → List (Entry α)
  | [] => []
  | event :: events =>
    ((event.call? name).map (s.entry name)).toList ++ transcript (s.next event).2 name events

/-! ## Answers under a name -/

/-- Two answers are the same, and leave the same engine under the name, with copies. -/
structure Answers (name : String) (x x' : Reply α × Session α) : Prop where
  reply_eq : x'.1 = x.1
  get?_eq : x'.2.get? name = x.2.get? name
  copy : ∀ o, x.2.get? name = some o → o.getEngine.store.ownership = .copy

section Answers

variable {s s' : Session α} {name : String} {o : Occupant α}

omit [Scalar α] in
theorem answers_put (s s' : Session α) (name : String) (reply : Reply α)
    (hc : o.getEngine.store.ownership = .copy) :
    Answers name (reply, s.put name o) (reply, s'.put name o) := by
  refine ⟨rfl, ?_, fun o' ho' => ?_⟩
  · show (s'.put name o).get? name = (s.put name o).get? name
    rw [get?_put, get?_put, if_pos rfl, if_pos rfl]
  · rw [get?_put, if_pos rfl] at ho'
    exact Option.some.inj ho' ▸ hc

omit [Scalar α] in
theorem answers_after {β : Type} {x x' : Outcome α β} (hx : x.Same x') (s s' : Session α)
    (name : String) (o : Occupant α) (reply : β → Reply α) :
    Answers name (s.after name o x reply) (s'.after name o x' reply) := by
  obtain ⟨hc, h, h'⟩ := hx
  rw [after_eq, after_eq]
  exact answers_put _ _ name _ ((o.getEngine_withEngine _).symm ▸ hc)

omit [Scalar α] in
theorem answers_keep {h h' : Host α} (ho : s.get? name = some o) (ho' : s'.get? name = some o)
    (hc : o.getEngine.store.ownership = .copy) {reply reply' : Reply α} (hr : reply' = reply) :
    Answers name (reply, { s with host := h }) (reply', { s' with host := h' }) where
  reply_eq := hr
  get?_eq := ho'.trans ho.symm
  copy _ hget := Option.some.inj (ho.symm.trans hget) ▸ hc

/-- Requests to an occupant with copies are answered alike, next to any two hosts. Only a reload
needs the vectors of the hosts to be equal. -/
theorem answers_serve (hs : s.Sound) (ho : s.get? name = some o) (ho' : s'.get? name = some o)
    (hc : o.getEngine.store.ownership = .copy) (r : Request α)
    (hread : (Call.request r).readsHost = true →
      s.graph.vectors s'.host = s.graph.vectors s.host) :
    Answers name (s.serve name o r) (s'.serve name o r) := by
  have hview := Engine.read_of_copy hc s.host s'.host
  cases r with
  | train data =>
    cases o with
    | engine e => exact answers_keep ho ho' hc rfl
    | trainer t => exact answers_after (Trainer.train_same hc s.host s'.host data) ..
  | intoCompiled =>
    cases o with
    | engine e => exact answers_keep ho ho' hc rfl
    | trainer t => exact answers_put (o := .engine t.engine) s s' name _ hc
  | forward sample =>
    have hkept := o.getEngine.forward_fields_eq s.host sample
    simp only [serve, Engine.forward_of_copy hc s.host s'.host sample]
    generalize o.getEngine.forward s.host sample = answer at hkept ⊢
    obtain ⟨result, e⟩ := answer
    have hcopy : e.store.ownership = .copy := hkept.2.1.symm ▸ hc
    exact answers_after (.intro hcopy ..) ..
  | evaluateMany samples =>
    simp only [serve, Engine.evaluateMany_of_copy hc s.host s'.host samples]
    exact answers_after (.intro hc ..) ..
  | value n => exact answers_after (.intro hc ..) ..
  | trainStep batch => exact answers_after (Engine.trainStep_same hc s.host s'.host batch) ..
  | accumulate batch => exact answers_after (Engine.accumulate_same hc s.host s'.host batch) ..
  | apply => exact answers_after (Engine.apply_same hc s.host s'.host) ..
  | gradients | optimizer | layout | sync => exact answers_keep ho ho' hc rfl
  | weight edge =>
    have hweight : o.getEngine.weight s'.host = o.getEngine.weight s.host := by
      funext edge
      rw [Engine.weight, Engine.weight, hview]
    simp only [serve, hweight]
    exact answers_after (.intro hc ..) ..
  | bias n =>
    have hbias : o.getEngine.bias s'.host = o.getEngine.bias s.host := by
      funext n
      rw [Engine.bias, Engine.bias, hview]
    simp only [serve, hbias]
    exact answers_after (.intro hc ..) ..
  | params =>
    refine answers_keep ho ho' hc ?_
    rw [Engine.params, Engine.params, hview]
  | reload =>
    obtain ⟨schedule, options, hp⟩ := hs.placed name o ho
    have hreload := hp.reload_congr (hread rfl)
    simp only [serve, hreload]
    refine answers_put s s' name _ ?_
    rw [o.getEngine_withEngine]
    show (o.getEngine.store.reload s.host).ownership = .copy
    rw [← hc]
    cases o.getEngine.store <;> rfl

end Answers

/-! ## Two sessions -/

/-- Two sessions of one graph with the same occupant under a name, or none. An engine that is
there has copies of its parameters. -/
structure Matched (name : String) (s s' : Session α) : Prop where
  left : s.Sound
  right : s'.Sound
  graph_eq : s'.graph = s.graph
  get?_eq : s'.get? name = s.get? name
  copy : ∀ o, s.get? name = some o → o.getEngine.store.ownership = .copy

/-- Events keep the graph, and what stands under the names that they are not calls under. -/
theorem next_keeps (s : Session α) (event : Event α) :
    (s.next event).2.graph = s.graph ∧
      ∀ name, event.call? name = none → (s.next event).2.get? name = s.get? name := by
  have hput : ∀ {n : String} {c : Call α} (o : Occupant α) name,
      Event.call? name (.call n c) = none → (s.put n o).get? name = s.get? name := by
    intro n c o name hn
    have hne : name ≠ n := fun heq => by simp [Event.call?, heq] at hn
    rw [get?_put, if_neg hne]
  cases event with
  | edit owner edit =>
    rw [next, Session.edit]
    rcases s.graph.tensor? owner with - | t
    · exact ⟨rfl, fun _ _ => rfl⟩
    · simp only
      split <;> exact ⟨rfl, fun _ _ => rfl⟩
  | call n c =>
    cases c with
    | compile options train =>
      rw [next, perform]
      rcases Engine.compile s.graph s.host options train with fault | e
      · exact ⟨rfl, fun _ _ => rfl⟩
      · exact ⟨rfl, hput _⟩
    | makeTrainer config =>
      rw [next, perform]
      rcases Trainer.build s.graph s.host config with fault | t
      · exact ⟨rfl, fun _ _ => rfl⟩
      · exact ⟨rfl, hput _⟩
    | request r =>
      rw [next, perform]
      rcases ho : s.get? n with - | o
      · exact ⟨rfl, fun _ _ => rfl⟩
      · obtain ⟨o', -, hl⟩ := leads_serve ho r
        refine ⟨hl.graph_eq, fun name hn => ?_⟩
        have hne : name ≠ n := fun heq => by simp [Event.call?, heq] at hn
        exact (hl.get?_eq name).trans (if_neg hne)

theorem graph_run (s : Session α) (events : List (Event α)) : (s.run events).graph = s.graph := by
  induction events generalizing s with
  | nil => rfl
  | cons event events ih => exact (ih _).trans (s.next_keeps event).1

namespace Matched

variable {s s' : Session α} {name : String}

theorem symm (hm : Matched name s s') : Matched name s' s :=
  ⟨hm.right, hm.left, hm.graph_eq.symm, hm.get?_eq.symm, fun o ho => hm.copy o (hm.get?_eq ▸ ho)⟩

/-- What happens under other names, and on the host, does not count. -/
theorem next_left (hm : Matched name s s') {event : Event α} (he : event.call? name = none) :
    Matched name (s.next event).2 s' := by
  obtain ⟨hgraph, hget⟩ := s.next_keeps event
  have hget := hget name he
  exact ⟨(hm.left.machine_next event).1, hm.right, hm.graph_eq.trans hgraph.symm,
    hm.get?_eq.trans hget.symm, fun o ho => hm.copy o (hget ▸ ho)⟩

/-- A call that finds the vectors of the host that it reads is answered alike. -/
theorem call (hm : Matched name s s') {c : Call α}
    (hread : c.readsHost = true → s.graph.vectors s'.host = s.graph.vectors s.host)
    (hplaced : (s.entry name c).placed? ≠ some .reference) :
    Answers name (s.perform name c) (s'.perform name c) := by
  have hcopy : ∀ {ownership : Ownership}, some ownership ≠ some .reference → ownership = .copy := by
    intro ownership hne
    cases ownership <;> first | rfl | exact absurd rfl hne
  cases c with
  | compile options train =>
    have hsame := Engine.compile_congr (hread rfl) options train
    simp only [entry, perform, hm.graph_eq, hsame] at hplaced ⊢
    rcases hc : Engine.compile s.graph s.host options train with fault | e
    · exact ⟨rfl, hm.get?_eq, hm.copy⟩
    · simp only [hc] at hplaced
      refine answers_put (o := .engine e) s s' name _ ?_
      exact (Engine.ownership_of_compile hc).trans (hcopy hplaced)
  | makeTrainer config =>
    have hsame := Trainer.build_congr (hread rfl) config
    simp only [entry, perform, hm.graph_eq, hsame] at hplaced ⊢
    rcases hb : Trainer.build s.graph s.host config with fault | t
    · exact ⟨rfl, hm.get?_eq, hm.copy⟩
    · simp only [hb] at hplaced
      refine answers_put (o := .trainer t) s s' name _ ?_
      exact (Engine.ownership_of_compile (Trainer.compile_of_build hb)).trans (hcopy hplaced)
  | request r =>
    rw [perform, perform, hm.get?_eq]
    rcases ho : s.get? name with - | o
    · refine ⟨rfl, hm.get?_eq, hm.copy⟩
    · exact answers_serve hm.left ho (hm.get?_eq.trans ho) (hm.copy o ho) r hread

/-- Transcripts that agree in the calls and in what these read of the host are the same. -/
theorem transcript_eq (hm : Matched name s s') {events events' : List (Event α)}
    (hplaced : ∀ x ∈ s.transcript name events, x.placed? ≠ some .reference)
    (hseen : (s'.transcript name events').map Entry.seen =
      (s.transcript name events).map Entry.seen) :
    s'.transcript name events' = s.transcript name events := by
  induction events generalizing s s' events' with
  | nil => exact List.map_eq_nil_iff.1 hseen
  | cons event events ih =>
    rw [transcript] at hplaced hseen ⊢
    rcases he : event.call? name with - | c
    · rw [he] at hplaced hseen
      exact ih (hm.next_left he) hplaced hseen
    · rw [he] at hplaced hseen
      -- the other session comes to the same call after events that do not count
      induction events' generalizing s' with
      | nil => simp [transcript] at hseen
      | cons event' events' ih' =>
        rw [transcript] at hseen ⊢
        rcases he' : event'.call? name with - | c'
        · rw [he'] at hseen
          exact ih' (hm.symm.next_left he').symm hseen
        · rw [he'] at hseen
          obtain rfl := Event.eq_call he
          obtain rfl := Event.eq_call he'
          simp only [Option.map_some, Option.toList_some, List.singleton_append,
            List.map_cons, List.cons.injEq, List.mem_cons, forall_eq_or_imp] at hseen hplaced ⊢
          obtain ⟨hentry, hseen⟩ := hseen
          obtain ⟨rfl, hhost⟩ := Prod.mk.inj hentry
          have hread : c'.readsHost = true →
              s.graph.vectors s'.host = s.graph.vectors s.host := fun hr => by
            simp only [entry, hr, if_true, hm.graph_eq] at hhost
            exact Option.some.inj hhost
          have hanswers := hm.call hread hplaced.1
          have hnext : Matched name (s.perform name c').2 (s'.perform name c').2 :=
            { left := (hm.left.machine_next (.call name c')).1
              right := (hm.right.machine_next (.call name c')).1
              graph_eq := (s'.next_keeps (.call name c')).1.trans
                (hm.graph_eq.trans (s.next_keeps (.call name c')).1.symm)
              get?_eq := hanswers.get?_eq
              copy := hanswers.copy }
          refine ⟨?_, ih hnext hplaced.2 hseen⟩
          rw [entry, entry, hanswers.reply_eq, Entry.mk.injEq]
          exact ⟨rfl, hhost, rfl⟩

end Matched

/-- A session without engines. -/
def start (g : Graph α) (h : Host α) : Session α := { graph := g, host := h }

theorem sound_start {g : Graph α} {h : Host α} (hh : g.HostedBy h) : (start g h).Sound :=
  ⟨hh, fun _ _ ho => by contradiction⟩

/-- **Sessions share parameters through the host only.** The parameters of a session follow its
machine: those that can be read of an engine are those under its name, with one vector of the host
for each, and a call that does anything to them leaves its engine with the vectors of the host. An
engine with copies learns nothing else of the session than the vectors of the host when it is
compiled and when it reloads. -/
theorem sessions_share_through_host {g : Graph α} {h : Host α} (hh : g.HostedBy h)
    (events : List (Event α)) :
    ((start g h).run events).machine =
        Machine.run { host := g.vectors h, shares := fun _ => none } ((start g h).script events) ∧
      (∀ name o, ((start g h).run events).get? name = some o →
        (∃ P, ((start g h).run events).machine.params? name = some P ∧
          o.getEngine.params ((start g h).run events).host = g.owners.map fun p => (p, P p)) ∧
        ∀ owner p, g.storedWith owner p = true → owner = p) ∧
      (∀ name c, ((start g h).run events).commands (.call name c) ≠ [] →
        (((start g h).run events).next (.call name c)).2.machine.params? name =
          some (((start g h).run events).next (.call name c)).2.machine.host) ∧
      ∀ (h' : Host α) (events' : List (Event α)) name, g.HostedBy h' →
        (∀ x ∈ (start g h).transcript name events, x.placed? ≠ some .reference) →
        ((start g h').transcript name events').map Entry.seen =
          ((start g h).transcript name events).map Entry.seen →
        (start g h').transcript name events' = (start g h).transcript name events := by
  obtain ⟨hsound, hmachine⟩ := (sound_start hh).machine_run events
  have hgraph : ((start g h).run events).graph = g := graph_run ..
  refine ⟨hmachine, fun name o ho => ?_, fun name c hc => hsound.params?_next hc,
    fun h' events' name hh' => ?_⟩
  · obtain ⟨P, hP, hparams⟩ := hsound.params?_eq ho
    obtain ⟨schedule, options, hp⟩ := hsound.placed name o ho
    exact ⟨⟨P, hP, hparams.trans (by rw [hgraph])⟩,
      fun owner p => Graph.eq_of_storedWith (hgraph ▸ hp.store.apart)⟩
  · have hm : Matched name (start g h) (start g h') :=
      { left := sound_start hh
        right := sound_start hh'
        graph_eq := rfl
        get?_eq := rfl
        copy := fun o ho => by contradiction }
    exact hm.transcript_eq

/-- Two engines that train on one graph, and an edit of the weight in between. -/
def Event.twoEngines : List (Event ℚ) :=
  [.call "a" (.compile { Options.chain with ownership := .copy } true),
    .call "b" (.compile { Options.chain with ownership := .reference } true),
    .call "a" (.request (.trainStep [.chain])),
    .edit (.weight 0) (.set 0 7),
    .call "b" (.request (.trainStep [.chain]))]

/-- The first of the two engines alone. -/
def Event.oneEngine : List (Event ℚ) :=
  [.call "a" (.compile { Options.chain with ownership := .copy } true),
    .call "a" (.request (.trainStep [.chain]))]

theorem sessions_share_through_host_chain :
    (Graph.chain 0).HostedBy .chain ∧
      ((start (.chain 0) .chain).run Event.twoEngines).machine =
        Machine.run { host := (Graph.chain 0).vectors .chain, shares := fun _ => none }
          ((start (.chain 0) .chain).script Event.twoEngines) ∧
      (((start (.chain 0) .chain).run Event.twoEngines).machine.host (.weight 0) = [-118] ∧
        ((((start (.chain 0) .chain).run Event.twoEngines).machine.params? "a").map
          fun P => P (.weight 0)) = some [-13]) ∧
      (start (.chain 0) .chain).transcript "a" Event.oneEngine =
        (start (.chain 0) .chain).transcript "a" Event.twoEngines := by
  have hh : (Graph.chain 0).HostedBy .chain := Engine.twins_chain.hosted
  obtain ⟨hmachine, -, -, hprivate⟩ := sessions_share_through_host hh Event.twoEngines
  refine ⟨hh, hmachine, by decide +kernel, hprivate .chain Event.oneEngine "a" hh ?_ ?_⟩
  · decide +kernel
  · simp [transcript, Event.oneEngine, Event.twoEngines, Event.call?, Entry.seen, entry,
      Call.readsHost]

end Session

end GraphTape
