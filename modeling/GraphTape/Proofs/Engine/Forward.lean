import GraphTape.Proofs.Engine.Sound

/-!
# Evaluation refines the meaning of a graph

What an engine returns for a sample is the meaning of the graph at the vectors of the sample and
the live parameters. Nothing else matters: neither which of the two tapes is run, nor what earlier
calls left in the banks, nor calls in between that leave the parameters alone.

* `Engine.Sound.forward_spec`, `Engine.Sound.value_forward`: the values that a call of
  `Engine.forward` leaves.
* `Engine.Sound.forward_congr`: engines with the same parameters return the same.
* `Engine.forward_refines_value`: both tapes and repeated calls.
-/

namespace GraphTape

variable {α : Type} [Scalar α]

theorem Buffer.slice_congr {b b' : Buffer α} {start start' len : Nat}
    (h : ∀ i < len, b.view start i = b'.view start' i) :
    b.slice start len = b'.slice start' len :=
  List.map_congr_left fun i hi => h i (List.mem_range.1 hi)

/-- Whether a call leaves the parameters as they are. -/
def Action.isTrainingFree : Action α → Bool
  | .forward _ | .evaluateMany _ | .accumulate _ | .sync => true
  | .trainStep _ | .apply | .reload => false

namespace Engine

variable {g : Graph α} {s : Schedule} {options : Options α} {e e' : Engine α} {h h' : Host α}

/-- The live elements of the parameter of an owner. -/
def live (e : Engine α) (h : Host α) (o : Owner) : Nat → α :=
  e.store.view h (e.layout.slotOf o)

/-- The state after a list of calls. -/
def run (e : Engine α) (h : Host α) : List (Action α) → Engine α × Host α
  | [] => (e, h)
  | a :: as => run (e.act h a).2.1 (e.act h a).2.2 as

/-! ## One call -/

theorem forward_of_fault {sample : Sample α} {fault : Error α}
    (hf : (e.layout.packInputs 0 sample e.input).1 = some fault) :
    ∃ input, e.forward h sample = (.error fault, { e with input }) := by
  rw [forward]
  generalize e.layout.packInputs 0 sample e.input = packed at hf ⊢
  obtain ⟨found, input⟩ := packed
  obtain rfl : found = some fault := hf
  exact ⟨input, rfl⟩

theorem forward_of_none {sample : Sample α}
    (hf : (e.layout.packInputs 0 sample e.input).1 = none) :
    ∃ outputs e₁, e.forward h sample = (.ok outputs, e₁) := by
  rw [forward]
  generalize e.layout.packInputs 0 sample e.input = packed at hf ⊢
  obtain ⟨found, input⟩ := packed
  obtain rfl : found = none := hf
  exact ⟨_, _, rfl⟩

namespace Sound

/-- A call that returns outputs leaves the meaning of the graph at the sample it was given. -/
theorem forward_spec (he : e.Sound g s options) {sample : Sample α} {outputs : Outputs α}
    (hf : e.forward h sample = (.ok outputs, e')) :
    ∃ input banks, e' = { e with input, banks } ∧ outputs = e.collect banks.value ∧
      ∀ n < g.numNodes, ∀ i < g.width n, banks.value.view (e.layout.dataAt n) i =
        Graph.value (g.setting (e.live h) (vectorOf sample.inputs)) he.acyclic n i := by
  rw [Engine.forward] at hf
  split at hf
  · simp at hf
  · rename_i input hpack
    obtain ⟨houtputs, rfl⟩ := Prod.mk.inj hf
    refine ⟨input, _, rfl, (Except.ok.inj houtputs).symm, fun n hn i hi => ?_⟩
    rw [he.view_evaluate h input he.room.inference hn hi]
    have hinput : 0 + e.layout.inputLen ≤ e.input.size := by rw [he.input]; omega
    obtain ⟨-, hview⟩ := Layout.pack_spec he.fits he.fits.inputs hinput hpack
    refine Graph.value_congr (Graph.agree_setting (fun _ _ _ _ => rfl) fun m hm hsource c hc => ?_)
      he.acyclic hn hi
    rw [← hview m hm hsource c hc]
    simp only [inputEnv, Buffer.view, Nat.zero_add]

/-- The values of the nodes, as they are read off the engine after a call. -/
theorem value_forward (he : e.Sound g s options) {sample : Sample α} {outputs : Outputs α}
    (hf : e.forward h sample = (.ok outputs, e')) {n : Nat} (hn : n < g.numNodes) :
    e'.value n = .ok ((List.range (g.width n)).map
      (Graph.value (g.setting (e.live h) (vectorOf sample.inputs)) he.acyclic n)) := by
  obtain ⟨input, banks, rfl, -, hvalue⟩ := he.forward_spec hf
  rw [Engine.value]
  simp only [he.fits.node n hn]
  exact congrArg Except.ok
    (List.map_congr_left fun i hi => hvalue n hn i (List.mem_range.1 hi))

section Alike

variable {g' : Graph α} {s' : Schedule} {options' : Options α}

/-- The outputs of engines for alike graphs are the same if the values of all nodes are. -/
theorem collect_eq (he : e.Sound g s options) (he' : e'.Sound g' s' options') (hg : g.Alike g')
    {v v' : Buffer α} (h : ∀ n < g.numNodes, ∀ i < g.width n,
      v.view (e.layout.dataAt n) i = v'.view (e'.layout.dataAt n) i) :
    e.collect v = e'.collect v' := by
  rw [collect, collect, he.outputs, he'.outputs, he.names, he'.names, hg.outputs_eq, hg.nodeIds_eq,
    hg.name_eq]
  congr 1
  funext o n
  by_cases hn : n < g.numNodes
  · rw [he.fits.node n hn, he'.fits.node n (hg.numNodes_eq ▸ hn)]
    show o.insert _ (v.slice (e.layout.dataAt n) (g.width n)) = _
    rw [Buffer.slice_congr (h n hn), hg.width_eq]
    rfl
  · have hle : e.layout.nodes.length ≤ n := by rw [he.fits.nodes_length]; omega
    have hle' : e'.layout.nodes.length ≤ n := by
      rw [he'.fits.nodes_length, ← hg.numNodes_eq]
      omega
    rw [List.getElem?_eq_none hle, List.getElem?_eq_none hle']

theorem value_eq (he : e.Sound g s options) (he' : e'.Sound g' s' options') (hg : g.Alike g')
    (h : ∀ n < g.numNodes, ∀ i < g.width n, e.banks.value.view (e.layout.dataAt n) i =
      e'.banks.value.view (e'.layout.dataAt n) i) (n : Nat) : e.value n = e'.value n := by
  rw [Engine.value, Engine.value]
  by_cases hn : n < g.numNodes
  · rw [he.fits.node n hn, he'.fits.node n (hg.numNodes_eq ▸ hn)]
    show Except.ok (e.banks.value.slice (e.layout.dataAt n) (g.width n)) = _
    rw [Buffer.slice_congr (h n hn), hg.width_eq]
    rfl
  · have hle : e.layout.nodes.length ≤ n := by rw [he.fits.nodes_length]; omega
    have hle' : e'.layout.nodes.length ≤ n := by
      rw [he'.fits.nodes_length, ← hg.numNodes_eq]
      omega
    rw [List.getElem?_eq_none hle, List.getElem?_eq_none hle']

end Alike

/-- Two engines of a graph with the same live parameters return the same for a sample, and leave
the same values. -/
theorem forward_congr (he : e.Sound g s options) (he' : e'.Sound g s options)
    (hlayout : e'.layout = e.layout)
    (hlive : ∀ o, (g.tensor? o).isSome = true → ∀ i < g.extent o, e'.live h' o i = e.live h o i)
    {sample : Sample α} {outputs : Outputs α} {e₁ : Engine α}
    (hf : e.forward h sample = (.ok outputs, e₁)) :
    ∃ e₂, e'.forward h' sample = (.ok outputs, e₂) ∧ ∀ n, e₂.value n = e₁.value n := by
  have hfault : (e'.layout.packInputs 0 sample e'.input).1 = none := by
    rw [Layout.packInputs, hlayout, Layout.fst_pack 0 0 rfl sample.inputs e'.input e.input]
    rw [Engine.forward, Layout.packInputs] at hf
    split at hf
    · simp at hf
    · rename_i hpack
      rw [hpack]
  obtain ⟨outputs', e₂, hf'⟩ := forward_of_none (h := h') hfault
  obtain ⟨input, banks, rfl, rfl, hvalue⟩ := he.forward_spec hf
  obtain ⟨input', banks', rfl, rfl, hvalue'⟩ := he'.forward_spec hf'
  have hsame : ∀ n < g.numNodes, ∀ i < g.width n,
      banks'.value.view (e'.layout.dataAt n) i = banks.value.view (e.layout.dataAt n) i := by
    intro n hn i hi
    rw [hvalue n hn i hi, hvalue' n hn i hi]
    exact Graph.value_congr (Graph.agree_setting hlive fun _ _ _ _ _ => rfl) _ hn hi
  have hround : Sound g s options { e with input, banks } := by
    have := he.forward h sample
    rwa [hf] at this
  have hround' : Sound g s options { e' with input := input', banks := banks' } := by
    have := he'.forward h' sample
    rwa [hf'] at this
  refine ⟨_, he'.collect_eq he (.refl g) hsame ▸ hf', fun n => ?_⟩
  exact hround'.value_eq hround (.refl g) hsame n

end Sound

/-! ## Calls in between -/

/-- A batch without an update leaves the parameters as they are. -/
theorem runBatch_false (e : Engine α) (h : Host α) (batch : List (Sample α)) :
    (e.runBatch h batch false).engine.layout = e.layout ∧
      (e.runBatch h batch false).engine.store = e.store ∧
      (e.runBatch h batch false).host = h := by
  rw [runBatch]
  cases e.training with
  | none => exact ⟨rfl, rfl, rfl⟩
  | some k =>
    simp only
    split
    · exact ⟨rfl, rfl, rfl⟩
    · split
      · exact ⟨rfl, rfl, rfl⟩
      · exact ⟨rfl, rfl, rfl⟩

theorem live_act (e : Engine α) (h : Host α) {a : Action α} (ha : a.isTrainingFree = true) :
    (e.act h a).2.1.layout = e.layout ∧
      ∀ o i, (e.act h a).2.1.live (e.act h a).2.2 o i = e.live h o i := by
  cases a with
  | forward sample =>
    have hkept : (e.forward h sample).2.layout = e.layout ∧
        (e.forward h sample).2.store = e.store := by
      rw [forward]
      split <;> exact ⟨rfl, rfl⟩
    refine ⟨hkept.1, fun o i => ?_⟩
    show (e.forward h sample).2.live h o i = _
    rw [live, hkept.1, hkept.2, live]
  | evaluateMany samples => exact ⟨rfl, fun _ _ => rfl⟩
  | accumulate batch =>
    obtain ⟨hlayout, hstore, hhost⟩ := runBatch_false e h batch
    refine ⟨hlayout, fun o i => ?_⟩
    show (e.runBatch h batch false).engine.live (e.runBatch h batch false).host o i = _
    rw [live, hlayout, hstore, hhost, live]
  | sync =>
    refine ⟨rfl, fun o i => ?_⟩
    exact congrFun (e.store.view_sync h _) i
  | trainStep | apply | reload => contradiction

/-- Calls that leave the parameters alone keep the layout, the live parameters and the
invariant. -/
theorem Sound.run {actions : List (Action α)} (he : e.Sound g s options)
    (ha : ∀ a ∈ actions, a.isTrainingFree = true) :
    (e.run h actions).1.Sound g s options ∧ (e.run h actions).1.layout = e.layout ∧
      ∀ o i, (e.run h actions).1.live (e.run h actions).2 o i = e.live h o i := by
  induction actions generalizing e h with
  | nil => exact ⟨he, rfl, fun _ _ => rfl⟩
  | cons a actions ih =>
    obtain ⟨hlayout, hlive⟩ := e.live_act h (ha a List.mem_cons_self)
    obtain ⟨hsound, hlayout', hlive'⟩ := ih (he.act h a) (h := (e.act h a).2.2)
      fun b hb => ha b (List.mem_cons_of_mem a hb)
    exact ⟨hsound, hlayout'.trans hlayout, fun o i => (hlive' o i).trans (hlive o i)⟩

/-- **Evaluation refines the meaning of a graph.** Both tapes leave the value of every node, from
any contents of the banks; the one for training leaves the pre-activations as well. So a call that
returns outputs leaves in every node its value at the vectors of the sample and the live
parameters. A sample that is evaluated again, after calls that leave the parameters alone, gives the
same outputs and the same values. -/
theorem forward_refines_value {train : Bool} (hc : Engine.compile g h options train = .ok e) :
    ∃ (s : Schedule) (hg : g.Acyclic), g.schedule = .ok s ∧
      (∀ (mode : Mode) (env : Env α) (w : Work α), w.banks.Room e.layout mode →
        ∀ n < g.numNodes, ∀ i < g.width n,
          (Tape.run env (Tape.evaluation g s e.layout mode) w).banks.value.view
              (e.layout.dataAt n) i =
            Graph.value (e.layout.setting g env) hg n i ∧
          (mode = .training →
            (Tape.run env (Tape.evaluation g s e.layout mode) w).banks.z.view
                (e.layout.dataAt n) i =
              Graph.pre (e.layout.setting g env) hg n i)) ∧
      e.tape = Tape.evaluation g s e.layout .inference ∧
      (∀ k, e.training = some k → k.forward = Tape.evaluation g s e.layout .training) ∧
      ∀ (e₀ e₁ : Engine α) (h₀ : Host α) (sample : Sample α) (outputs : Outputs α),
        Reachable g options train e₀ → e₀.forward h₀ sample = (.ok outputs, e₁) →
        (∀ n < g.numNodes, e₁.value n = .ok ((List.range (g.width n)).map
          (Graph.value (g.setting (e₀.live h₀) (vectorOf sample.inputs)) hg n))) ∧
        ∀ actions : List (Action α), (∀ a ∈ actions, a.isTrainingFree = true) →
          ∃ e₂, (e₁.run h₀ actions).1.forward (e₁.run h₀ actions).2 sample = (.ok outputs, e₂) ∧
            ∀ n, e₂.value n = e₁.value n := by
  obtain ⟨s, he⟩ := sound_of_compile hc
  refine ⟨s, he.acyclic, he.schedule, fun mode env w hw n hn i hi => ?_, he.tape,
    fun k hk => (he.training k hk).forward, ?_⟩
  · have hmem := (Graph.linearizes_of_schedule he.schedule).mem_iff n |>.2 hn
    have heval := evaluated_evaluation he.schedule he.fits he.acyclic env hw
    exact ⟨heval.value n hmem i hi, fun hmode => heval.z hmode n hmem i hi⟩
  · intro e₀ e₁ h₀ sample outputs hreach hf
    obtain ⟨s₀, he₀⟩ := sound_of_reachable hreach
    refine ⟨fun n hn => he₀.value_forward hf hn, fun actions ha => ?_⟩
    have he₁ : e₁.Sound g s₀ options := by
      have := he₀.forward h₀ sample
      rwa [hf] at this
    obtain ⟨hsound, hlayout, hlive⟩ := he₁.run (h := h₀) ha
    obtain ⟨input, banks, rfl, -, -⟩ := he₀.forward_spec hf
    refine he₀.forward_congr hsound hlayout (fun o _ i _ => ?_) hf
    exact hlive o i

theorem forward_refines_value_chain :
    ∃ (e e₁ e₂ : Engine ℚ) (hg : (Graph.chain 0).Acyclic) (outputs : Outputs ℚ),
      Engine.compile (.chain 0) .chain .chain true = .ok e ∧
      Graph.value (e.layout.setting (.chain 0) (e.inputEnv .chain #[5])) hg 1 0 = 13 ∧
      e.forward .chain .chain = (.ok outputs, e₁) ∧
      e₁.value 1 = .ok [13] ∧
      (e₁.run .chain [.accumulate [.chain], .sync]).1.forward
        (e₁.run .chain [.accumulate [.chain], .sync]).2 .chain = (.ok outputs, e₂) ∧
      ∀ n, e₂.value n = e₁.value n := by
  obtain ⟨e, hc, hrun⟩ := exists_eq_ok (x := Engine.compile (.chain 0) .chain .chain true)
    (f := fun e => ((e.forward .chain .chain).1.toOption.isSome,
      ((e.forward .chain .chain).2.value 1).toOption,
      (e.evaluate .chain #[5] (.inference e.layout)).value.view (e.layout.dataAt 1) 0))
    (c := (true, some [13], 13)) (by decide +kernel)
  obtain ⟨hok, hrun⟩ := Prod.mk.inj hrun
  obtain ⟨hread, hview⟩ := Prod.mk.inj hrun
  obtain ⟨s, hg, -, hmodes, htape, -, hcalls⟩ := forward_refines_value hc
  have hvalue := (hmodes .inference (e.inputEnv .chain #[5])
    { banks := .inference e.layout, grads := #[], loss := 0 } (Banks.room_inference e.layout) 1
    (by decide) 0 (by decide)).1
  rcases hf : e.forward .chain .chain with ⟨result, e₁⟩
  cases result with
  | error fault => simp [hf, Except.toOption] at hok
  | ok outputs =>
    obtain ⟨hleft, hagain⟩ := hcalls e e₁ .chain .chain outputs (.compile hc) hf
    obtain ⟨e₂, hagain, hsame⟩ := hagain [.accumulate [.chain], .sync]
      (by simp [Action.isTrainingFree])
    have hleft := hleft 1 (by decide)
    rw [hf, hleft] at hread
    refine ⟨e, e₁, e₂, hg, outputs, hc, ?_, hf, hleft.trans (congrArg _ (Option.some.inj hread)),
      hagain, hsame⟩
    rw [← hvalue, ← htape]
    exact hview

end Engine

end GraphTape
