import GraphTape.Proofs.Graph.Settle
import GraphTape.Proofs.Tape.Evaluation
import GraphTape.Tape.Reverse

/-!
# What reverse sweeps compute

A reverse sweep leaves the error of every node in its place and adds to the gradient of every
parameter once, whatever the banks of errors held before. The proof goes along the order in which
nodes settle. The errors of the successors stand in their places (`collects_terms`); the error of
the node is then final, and the gradients of the parameters that act on it grow by their
contributions (`adds_gradients`).

* `Swept`: the nodes that have settled have their errors, and their parameters the gradients.
* `swept_reverse`: what a whole sweep computes after an evaluation in training.
-/

namespace GraphTape

variable {α : Type} [Scalar α]

/-- The errors of the nodes as the bank holds them. -/
def Layout.errors (l : Layout) (s : Work α) (n : Nat) : Nat → α :=
  s.banks.error.view (l.dataAt n)

/-- The targets of the output nodes as a run reads them. -/
def Layout.targets (l : Layout) (env : Env α) (n : Nat) : Nat → α :=
  fun i => env.target (l.targetAt n + i)

/-! ## Errors -/

/-- The error vector holds `x` afterwards, the loss is as given, and of the rest only `temp` may
have changed. -/
structure Work.Collects (s : Work α) (start len : Nat) (x : Nat → α) (loss : α) (s' : Work α) :
    Prop where
  fills : s.banks.error.Fills start len x s'.banks.error
  value_eq : s'.banks.value = s.banks.value
  z_eq : s'.banks.z = s.banks.z
  pre_eq : s'.banks.pre = s.banks.pre
  temp_size : s'.banks.temp.size = s.banks.temp.size
  grads_eq : s'.grads = s.grads
  loss_eq : s'.loss = loss

namespace Work.Collects

variable {s s' s'' : Work α} {start len : Nat} {x y : Nat → α} {loss loss' : α}

theorem congr (h : s.Collects start len x loss s') (hxy : ∀ i < len, x i = y i) :
    s.Collects start len y loss s' :=
  { h with fills := h.fills.congr hxy }

/-- Of two collections into one vector the second one counts. -/
theorem trans (h : s.Collects start len x loss s') (h' : s'.Collects start len y loss' s'') :
    s.Collects start len y loss' s'' where
  fills := h.fills.trans h'.fills
  value_eq := h'.value_eq.trans h.value_eq
  z_eq := h'.z_eq.trans h.z_eq
  pre_eq := h'.pre_eq.trans h.pre_eq
  temp_size := h'.temp_size.trans h.temp_size
  grads_eq := h'.grads_eq.trans h.grads_eq
  loss_eq := h'.loss_eq

theorem room {l : Layout} (h : s.Collects start len x loss s') (hs : s.banks.Room l .training) :
    s'.banks.Room l .training where
  value := h.value_eq ▸ hs.value
  pre := h.pre_eq ▸ hs.pre
  temp := h.temp_size.trans hs.temp
  z := fun hmode => h.z_eq ▸ hs.z hmode
  error := fun hmode => h.fills.size_eq.trans (hs.error hmode)

end Work.Collects

section Instructions

variable {s : Work α} (env : Env α) {start len : Nat}

/-- The first product is written over whatever the vector held. -/
theorem collects_backprop_first (h : start + len ≤ s.banks.error.size)
    (htemp : len ≤ s.banks.temp.size) (dst : Nat) (weight : Slot) (cols : Nat) :
    s.Collects start len
      (fun r => Scalar.sum cols fun c =>
        s.banks.error.view dst c * env.params weight (r * cols + c))
      s.loss (Instr.run env s (.backprop dst weight len cols start false)) := by
  have hroom : 0 + len ≤ s.banks.temp.size := by omega
  have hproduct := Buffer.setTransposedProduct_fills hroom (s.banks.error.view dst)
    (env.params weight) cols
  exact ⟨(Buffer.copyFrom_fills h _).congr hproduct.view_eq, rfl, rfl, rfl, hproduct.size_eq,
    rfl, rfl⟩

/-- A later product is added to what the vector holds. -/
theorem collects_backprop_later (h : start + len ≤ s.banks.error.size)
    (htemp : len ≤ s.banks.temp.size) (dst : Nat) (weight : Slot) (cols : Nat) :
    s.Collects start len
      (fun r => s.banks.error.view start r + Scalar.sum cols fun c =>
        s.banks.error.view dst c * env.params weight (r * cols + c))
      s.loss (Instr.run env s (.backprop dst weight len cols start true)) := by
  have hroom : 0 + len ≤ s.banks.temp.size := by omega
  have hproduct := Buffer.setTransposedProduct_fills hroom (s.banks.error.view dst)
    (env.params weight) cols
  refine ⟨(Buffer.addEach_fills h _).congr fun r hr => ?_, rfl, rfl, rfl, hproduct.size_eq,
    rfl, rfl⟩
  rw [hproduct.view_eq r hr]

/-- The slopes of a loss are written where no product is. -/
theorem collects_outputError_first (h : start + len ≤ s.banks.error.size) (loss : Loss)
    (value target : Nat) :
    s.Collects start len
      (loss.slope len (s.banks.value.view value) fun i => env.target (target + i))
      (s.loss + loss.value len (s.banks.value.view value) fun i => env.target (target + i))
      (Instr.run env s (.outputError loss value target start len false)) :=
  ⟨loss.writeSlopes_fills h, rfl, rfl, rfl, rfl, rfl, rfl⟩

/-- The slopes of a loss are added to the products. -/
theorem collects_outputError_later (h : start + len ≤ s.banks.error.size)
    (htemp : len ≤ s.banks.temp.size) (loss : Loss) (value target : Nat) :
    s.Collects start len
      (fun i => s.banks.error.view start i +
        loss.slope len (s.banks.value.view value) (fun i => env.target (target + i)) i)
      (s.loss + loss.value len (s.banks.value.view value) fun i => env.target (target + i))
      (Instr.run env s (.outputError loss value target start len true)) := by
  have hroom : 0 + len ≤ s.banks.temp.size := by omega
  have hslopes := loss.writeSlopes_fills (a := s.banks.value.view value)
    (y := fun i => env.target (target + i)) hroom
  refine ⟨(Buffer.addEach_fills h _).congr fun i hi => ?_, rfl, rfl, rfl, hslopes.size_eq,
    rfl, rfl⟩
  rw [hslopes.view_eq i hi]

theorem collects_applyDerivative (h : start + len ≤ s.banks.error.size) (derivative : α → α)
    (z : Nat) :
    s.Collects start len
      (fun i => s.banks.error.view start i * derivative (s.banks.z.view z i))
      s.loss (Instr.run env s (.applyDerivative derivative z start len)) :=
  ⟨Activation.scaleErrors_fills derivative h _, rfl, rfl, rfl, rfl, rfl, rfl⟩

end Instructions

/-! ## Instructions of a node -/

namespace Tape

/-- The instruction for the `i`th edge out of a node. -/
def productBackInstr (l : Layout) (n : Nat) (edge : EdgeSlot × Nat) : Instr α :=
  .backprop (l.dataAt edge.1.dst) edge.1.weight edge.1.rows edge.1.cols (l.dataAt n)
    (decide (0 < edge.2))

/-- The instruction for the loss of a node, if it is an output. -/
def lossInstrs (g : Graph α) (l : Layout) (loss : Loss) (n : Nat) (accumulate : Bool) : Tape α :=
  if g.isOutput n then
    [.outputError loss (l.dataAt n) (l.targetAt n) (l.dataAt n) (g.width n) accumulate]
  else []

/-- The instruction for the gradient of a parameter. -/
def gradientInstr (g : Graph α) (l : Layout) (o : Owner) : Instr α :=
  match o with
  | .weight e => .weightGrad (l.dataAt (g.src e)) (l.dataAt (g.dst e)) (g.width (g.src e))
      (g.width (g.dst e)) (l.slotOf o).flat
  | .bias n => .biasGrad (l.dataAt n) (l.slotOf o).flat (g.width n)

variable {g : Graph α} {l : Layout} {n : Nat}

/-- The instructions of a node that errors are followed through. -/
theorem reverseNode_of_some (hl : l.Fits g) (hn : n < g.numNodes) (loss : Loss)
    {derivative : α → α} (hd : g.derivative? n = some derivative) :
    reverseNode g l loss n =
      (((g.efferents n).map (l.edgeOf g)).zipIdx.map (productBackInstr l n) ++
        lossInstrs g l loss n !(g.efferents n).isEmpty) ++
      (.applyDerivative derivative (l.dataAt n) (l.dataAt n) (g.width n) ::
        (g.entering n).map (gradientInstr g l)) := by
  have hweights : ((g.afferents n).map (l.edgeOf g)).map (fun e =>
      Instr.weightGrad (α := α) (l.dataAt e.src) (l.dataAt n) e.rows e.cols e.weight.flat) =
      ((g.afferents n).map Owner.weight).map (gradientInstr g l) := by
    rw [List.map_map, List.map_map]
    refine List.map_congr_left fun e he => ?_
    obtain rfl := (g.mem_afferents.1 he).2
    rfl
  rw [reverseNode, hl.node n hn]
  simp only [hl.efferentSlots_eq hn, hl.afferentSlots_eq hn, hd, Option.isSome_some, if_true,
    Layout.nodeOf, hweights, Graph.entering, List.map_append, lossInstrs]
  congr 2
  · cases g.isOutput n <;> simp
  · cases g.bias? n <;> rfl

/-- The instructions of a node that errors end at. -/
theorem reverseNode_of_none (hl : l.Fits g) (hn : n < g.numNodes) (loss : Loss)
    (hd : g.derivative? n = none) : reverseNode g l loss n = lossInstrs g l loss n false := by
  rw [reverseNode, hl.node n hn]
  simp only [hd, Option.isSome_none, Layout.nodeOf, lossInstrs]
  cases g.isOutput n <;> simp

end Tape

/-! ## The error of a node -/

section Node

variable {g : Graph α} {l : Layout} (env : Env α) {s s' : Work α} {n : Nat}

/-- The error of a successor is not touched while that of the node is collected. -/
theorem Work.Collects.errors_eq (hl : l.Fits g) (hg : g.Acyclic) (hn : n < g.numNodes)
    {x : Nat → α} {loss : α} (h : s.Collects (l.dataAt n) (g.width n) x loss s') {e : Nat}
    (he : e ∈ g.efferents n) :
    ∀ c < g.width (g.dst e), l.errors s' (g.dst e) c = l.errors s (g.dst e) c := by
  intro c hc
  rw [g.mem_efferents] at he
  have hne : g.dst e ≠ n := fun heq => hg.src_ne_dst he.1 (he.2.trans heq.symm)
  exact h.fills.view_of_disjoint (hl.data.disjoint _ _ (g.dst_lt he.1) hn hne) hc

/-- The products over the remaining edges are added one after the other. -/
theorem collects_products (hl : l.Fits g) (hg : g.Acyclic) (hn : n < g.numNodes)
    (hsize : l.dataAt n + g.width n ≤ s.banks.error.size) (htemp : g.width n ≤ s.banks.temp.size)
    (front : List Nat) (hfront : front ≠ []) {es : List Nat} (hes : ∀ e ∈ es, e ∈ g.efferents n)
    {k : Nat}
    (h : s.Collects (l.dataAt n) (g.width n)
      (fun r => Scalar.total (front.map fun e =>
        g.productBack (l.setting g env) (l.errors s) e r)) s.loss s') :
    s.Collects (l.dataAt n) (g.width n)
      (fun r => Scalar.total ((front ++ es).map fun e =>
        g.productBack (l.setting g env) (l.errors s) e r)) s.loss
      (Tape.run env (((es.map (l.edgeOf g)).zipIdx (k + 1)).map (Tape.productBackInstr l n))
        s') := by
  induction es generalizing front k s' with
  | nil =>
    rw [List.append_nil]
    exact h
  | cons e es ih =>
    have he := hes e List.mem_cons_self
    have hrows : g.width (g.src e) = g.width n := by rw [(g.mem_efferents.1 he).2]
    have hstep := collects_backprop_later env (s := s') (h.fills.size_eq ▸ hsize)
      (h.temp_size ▸ htemp) (l.dataAt (g.dst e)) (l.slotOf (.weight e)) (g.width (g.dst e))
    rw [h.loss_eq] at hstep
    have hnext := h.trans (hstep.congr (y := fun r => Scalar.total ((front ++ [e]).map fun e =>
        g.productBack (l.setting g env) (l.errors s) e r)) fun r hr => by
      have hback : g.productBack (l.setting g env) (l.errors s') e r =
          g.productBack (l.setting g env) (l.errors s) e r :=
        Graph.productBack_congr (h.errors_eq hl hg hn he) r
      rw [h.fills.view_eq r hr, List.map_append, List.map_singleton,
        Scalar.total_concat (by simpa using hfront), ← hback]
      rfl)
    have hrest := ih (front ++ [e]) (by simp)
      (fun f hf => hes f (List.mem_cons_of_mem e hf)) (k := k + 1) hnext
    rw [List.append_assoc, List.singleton_append] at hrest
    have hinstr : Tape.productBackInstr (α := α) l n (l.edgeOf g e, k + 1) =
        .backprop (l.dataAt (g.dst e)) (l.slotOf (.weight e)) (g.width n) (g.width (g.dst e))
          (l.dataAt n) true := by
      rw [← hrows]
      simp only [Tape.productBackInstr, Layout.edgeOf, Nat.zero_lt_succ, decide_true]
    rw [List.map_cons, List.zipIdx_cons, List.map_cons, Tape.run_cons, hinstr]
    exact hrest

/-- The products over all edges out of a node that has some. -/
theorem collects_efferents (hl : l.Fits g) (hg : g.Acyclic) (hn : n < g.numNodes)
    (hsize : l.dataAt n + g.width n ≤ s.banks.error.size) (htemp : g.width n ≤ s.banks.temp.size)
    (hne : g.efferents n ≠ []) :
    s.Collects (l.dataAt n) (g.width n)
      (fun r => Scalar.total ((g.efferents n).map fun e =>
        g.productBack (l.setting g env) (l.errors s) e r)) s.loss
      (Tape.run env (((g.efferents n).map (l.edgeOf g)).zipIdx.map (Tape.productBackInstr l n))
        s) := by
  obtain ⟨e, es, hes⟩ := List.exists_cons_of_ne_nil hne
  have hmem : ∀ f ∈ e :: es, f ∈ g.efferents n := fun f hf => hes ▸ hf
  have hrows : g.width (g.src e) = g.width n := by
    rw [(g.mem_efferents.1 (hmem e List.mem_cons_self)).2]
  have hfirst := collects_backprop_first env hsize htemp (l.dataAt (g.dst e))
    (l.slotOf (.weight e)) (g.width (g.dst e))
  have hproducts := collects_products env hl hg hn hsize htemp [e] (by simp)
    (fun f hf => hmem f (List.mem_cons_of_mem e hf)) (k := 0) hfirst
  rw [List.singleton_append, ← hes] at hproducts
  have hinstr : Tape.productBackInstr (α := α) l n (l.edgeOf g e, 0) =
      .backprop (l.dataAt (g.dst e)) (l.slotOf (.weight e)) (g.width n) (g.width (g.dst e))
        (l.dataAt n) false := by
    rw [← hrows]
    rfl
  rw [hes, List.map_cons, List.zipIdx_cons, List.map_cons, Tape.run_cons, hinstr]
  exact hes ▸ hproducts

/-- The loss of a node itself comes after the products over the edges that leave it. -/
theorem collects_terms (hl : l.Fits g) (hg : g.Acyclic) (hn : n < g.numNodes) (loss : Loss)
    (hsize : l.dataAt n + g.width n ≤ s.banks.error.size) (htemp : g.width n ≤ s.banks.temp.size)
    (hout : g.efferents n = [] → g.isOutput n = true) :
    s.Collects (l.dataAt n) (g.width n)
      (fun i => Scalar.total ((g.efferents n).map (fun e =>
          g.productBack (l.setting g env) (l.errors s) e i) ++
        if g.isOutput n then [loss.slope (g.width n) (l.values s n) (l.targets env n) i] else []))
      (g.addLoss loss (l.values s) (l.targets env) s.loss n)
      (Tape.run env (((g.efferents n).map (l.edgeOf g)).zipIdx.map (Tape.productBackInstr l n) ++
        Tape.lossInstrs g l loss n !(g.efferents n).isEmpty) s) := by
  rw [Tape.run_append]
  by_cases hnil : g.efferents n = []
  · have hslopes := collects_outputError_first env hsize loss (l.dataAt n) (l.targetAt n)
    simp only [hnil, hout hnil, List.map_nil, List.zipIdx_nil, Tape.run_nil, List.nil_append,
      Tape.lossInstrs, Graph.addLoss, if_true, List.isEmpty_nil, Bool.not_true, Tape.run_cons]
    exact hslopes
  · have hproducts := collects_efferents env hl hg hn hsize htemp hnil
    generalize Tape.run env (((g.efferents n).map (l.edgeOf g)).zipIdx.map
      (Tape.productBackInstr l n)) s = s' at hproducts ⊢
    cases hisout : g.isOutput n with
    | false =>
      simp only [Tape.lossInstrs, Graph.addLoss, hisout, Bool.false_eq_true, if_false,
        List.append_nil, Tape.run_nil]
      exact hproducts
    | true =>
      have hslopes := collects_outputError_later env (hproducts.fills.size_eq ▸ hsize)
        (hproducts.temp_size ▸ htemp) loss (l.dataAt n) (l.targetAt n)
      rw [hproducts.value_eq, hproducts.loss_eq] at hslopes
      have hflag : (!(g.efferents n).isEmpty) = true := by simpa using hnil
      simp only [Tape.lossInstrs, Graph.addLoss, hisout, if_true, hflag, Tape.run_cons,
        Tape.run_nil]
      refine hproducts.trans (hslopes.congr fun i hi => ?_)
      rw [hproducts.fills.view_eq i hi, Scalar.total_concat (by simpa using hnil)]
      rfl

end Node

/-! ## The gradients of a node -/

/-- The gradients of the listed parameters have grown by their contributions, and no others. -/
structure Work.Adds (g : Graph α) (l : Layout) (s : Work α) (os : List Owner) (s' : Work α) :
    Prop where
  banks_eq : s'.banks = s.banks
  loss_eq : s'.loss = s.loss
  grads_size : s'.grads.size = s.grads.size
  view_eq : ∀ o, (g.tensor? o).isSome = true → ∀ i < g.extent o,
    s'.grads.view (l.slotOf o).flat i =
      if o ∈ os then
        s.grads.view (l.slotOf o).flat i + g.contribution (l.values s) (l.errors s) o i
      else s.grads.view (l.slotOf o).flat i

section Gradients

variable {g : Graph α} {l : Layout} (env : Env α) {s : Work α}

theorem fills_gradientInstr (hl : l.Fits g) {o : Owner} (ho : (g.tensor? o).isSome = true)
    (hsize : s.grads.size = l.paramLen) :
    s.grads.Fills (l.slotOf o).flat (g.extent o)
      (fun i => s.grads.view (l.slotOf o).flat i +
        g.contribution (l.values s) (l.errors s) o i)
      (Instr.run env s (Tape.gradientInstr g l o)).grads := by
  have hle := hl.flat_le o ho
  rw [hl.len_eq ho, ← hsize] at hle
  cases o with
  | weight e => exact Buffer.addOuter_fills hle _ _
  | bias n => exact Buffer.addEach_fills hle _

theorem banks_gradientInstr (o : Owner) :
    (Instr.run env s (Tape.gradientInstr g l o)).banks = s.banks ∧
      (Instr.run env s (Tape.gradientInstr g l o)).loss = s.loss := by
  cases o <;> exact ⟨rfl, rfl⟩

/-- Each of the listed parameters gets its contribution once. -/
theorem adds_gradients (hl : l.Fits g) {os : List Owner} (hnodup : os.Nodup)
    (hos : ∀ o ∈ os, (g.tensor? o).isSome = true) (hsize : s.grads.size = l.paramLen) :
    s.Adds g l os (Tape.run env (os.map (Tape.gradientInstr g l)) s) := by
  induction os generalizing s with
  | nil => exact ⟨rfl, rfl, rfl, fun o _ i _ => by rw [if_neg List.not_mem_nil]; rfl⟩
  | cons o os ih =>
    have ho := hos o List.mem_cons_self
    rw [List.nodup_cons] at hnodup
    have hfills := fills_gradientInstr env hl ho hsize
    obtain ⟨hbanks, hloss⟩ := banks_gradientInstr env (g := g) (l := l) (s := s) o
    have hvalues : l.values (Instr.run env s (Tape.gradientInstr g l o)) = l.values s := by
      funext n
      rw [Layout.values, Layout.values, hbanks]
    have herrors : l.errors (Instr.run env s (Tape.gradientInstr g l o)) = l.errors s := by
      funext n
      rw [Layout.errors, Layout.errors, hbanks]
    have hrest := ih hnodup.2 (fun o' ho' => hos o' (List.mem_cons_of_mem o ho'))
      (hfills.size_eq.trans hsize)
    rw [List.map_cons, Tape.run_cons]
    refine ⟨hrest.banks_eq.trans hbanks, hrest.loss_eq.trans hloss,
      hrest.grads_size.trans hfills.size_eq, fun o' ho' i hi => ?_⟩
    rw [hrest.view_eq o' ho' i hi, hvalues, herrors]
    by_cases heq : o' = o
    · subst heq
      rw [if_neg hnodup.1, if_pos List.mem_cons_self]
      exact hfills.view_eq i hi
    · have hkept : (Instr.run env s (Tape.gradientInstr g l o)).grads.view (l.slotOf o').flat i =
          s.grads.view (l.slotOf o').flat i := by
        have happart := hl.flat_disjoint o' o ho' ho heq
        rw [hl.len_eq ho, hl.len_eq ho'] at happart
        exact hfills.view_of_disjoint happart hi
      simp only [hkept, List.mem_cons, heq, false_or]

end Gradients

/-! ## Whole sweeps -/

section Sweep

variable {g : Graph α} {l : Layout} {env : Env α} {loss : Loss} {w s : Work α} {n : Nat}

/-- The nodes `done` have settled, in this order: their errors are in place, the parameters that
act on them have their gradients, and their losses are counted. The rest is as it was in `w`. -/
structure Swept (env : Env α) (l : Layout) (loss : Loss) (hg : g.Acyclic) (w : Work α)
    (done : List Nat) (s : Work α) : Prop where
  room : s.banks.Room l .training
  value_eq : s.banks.value = w.banks.value
  z_eq : s.banks.z = w.banks.z
  error : ∀ n ∈ done, (g.derivative? n).isSome = true → ∀ i < g.width n,
    s.banks.error.view (l.dataAt n) i =
      Graph.delta (l.setting g env) loss (l.targets env) hg n i
  grads_size : s.grads.size = w.grads.size
  grads : ∀ o, (g.tensor? o).isSome = true → ∀ i < g.extent o,
    s.grads.view (l.slotOf o).flat i =
      if g.sink o ∈ done then
        w.grads.view (l.slotOf o).flat i +
          g.contribution (Graph.value (l.setting g env) hg)
            (Graph.delta (l.setting g env) loss (l.targets env) hg) o i
      else w.grads.view (l.slotOf o).flat i
  loss_eq : s.loss =
    done.foldl (g.addLoss loss (Graph.value (l.setting g env) hg) (l.targets env)) w.loss

/-- What a sweep that could be compiled consists of. -/
theorem Tape.reverse_spec {tape : Tape α} (hr : Tape.reverse g l loss = .ok tape) :
    g.nodeIds.findSome? g.derivativeFault? = none ∧ g.settle.1.length = g.numNodes ∧
      g.settle.1.flatMap (Tape.reverseNode g l loss) = tape := by
  rw [Tape.reverse] at hr
  cases hfault : g.nodeIds.findSome? g.derivativeFault? with
  | some fault => simp [hfault] at hr
  | none =>
    simp only [hfault] at hr
    split at hr
    · rename_i hlength
      exact ⟨rfl, hlength, Except.ok.inj hr⟩
    · contradiction

/-- What the compilation of a sweep has checked: the errors can be followed through every node
but the sources, every error starts at an output, and no parameter acts on a source. -/
structure Graph.Trainable (g : Graph α) : Prop where
  derivative : ∀ n < g.numNodes, g.isSource n = false → (g.derivative? n).isSome = true
  output : ∀ n < g.numNodes, g.efferents n = [] → g.isOutput n = true
  sink : ∀ o, (g.tensor? o).isSome = true → g.isSource (g.sink o) = false

/-- A graph is trainable once it has a schedule, shapes that fit and a sweep. -/
theorem Graph.trainable_of_reverse {schedule : Schedule} {tape : Tape α}
    (hs : g.schedule = .ok schedule) (hshape : g.shapeFault? = none)
    (hr : Tape.reverse g l loss = .ok tape) : g.Trainable where
  derivative n hn hsource := by
    have hfault := List.findSome?_eq_none_iff.1 (Tape.reverse_spec hr).1 n (g.mem_nodeIds.2 hn)
    rw [Graph.derivativeFault?, hsource, Bool.false_or] at hfault
    rw [Graph.derivative?, hsource, if_neg Bool.false_ne_true]
    by_contra hnone
    rw [if_neg hnone] at hfault
    contradiction
  output n hn hnil := Graph.isOutput_of_efferents_eq_nil hs hn hnil
  sink o ho := by
    cases o with
    | weight e =>
      have he := Graph.isSome_tensor?_weight.1 ho
      exact Graph.isSource_of_feeds ⟨e, he, rfl, rfl⟩
    | bias n =>
      obtain ⟨t, ht⟩ := Option.isSome_iff_exists.1 ho
      exact (Layout.bias_of_shapeFault?_eq_none hshape (Graph.lt_of_isSome_bias? ho) ht).1

/-- No bias acts on a source. -/
theorem Graph.Trainable.bias_eq_false (hgt : g.Trainable) (hsource : g.isSource n = true) :
    (g.bias? n).isSome = false := by
  refine Bool.eq_false_iff.2 fun hsome => ?_
  have hsink := hgt.sink (.bias n) hsome
  rw [Graph.sink, hsource] at hsink
  contradiction

/-- No parameter acts on a node whose errors end there. -/
theorem Graph.Trainable.sink_ne (hgt : g.Trainable) (hn : n < g.numNodes)
    (hd : g.derivative? n = none) {o : Owner} (ho : (g.tensor? o).isSome = true) :
    g.sink o ≠ n := by
  rintro rfl
  have hsome := hgt.derivative _ hn (hgt.sink o ho)
  rw [hd] at hsome
  contradiction

namespace Swept

variable {hg : g.Acyclic} {done : List Nat} (h : Swept env l loss hg w done s)
include h

/-- A sweep keeps the values of the nodes. -/
theorem values_eq (hvalue : ∀ n < g.numNodes, ∀ i < g.width n,
      w.banks.value.view (l.dataAt n) i = Graph.value (l.setting g env) hg n i)
    {m : Nat} (hm : m < g.numNodes) {i : Nat} (hi : i < g.width m) :
    l.values s m i = Graph.value (l.setting g env) hg m i := by
  rw [Layout.values, h.value_eq]
  exact hvalue m hm i hi

/-- The error of one more node leaves those of the others in place. -/
theorem error_append (hl : l.Fits g) (hlt : ∀ m ∈ done, m < g.numNodes) (hn : n < g.numNodes)
    (hdone : n ∉ done) {x : Nat → α} {b : Buffer α}
    (hfills : s.banks.error.Fills (l.dataAt n) (g.width n) x b)
    (hx : (g.derivative? n).isSome = true → ∀ i < g.width n,
      x i = Graph.delta (l.setting g env) loss (l.targets env) hg n i) :
    ∀ m ∈ done ++ [n], (g.derivative? m).isSome = true → ∀ i < g.width m,
      b.view (l.dataAt m) i = Graph.delta (l.setting g env) loss (l.targets env) hg m i := by
  intro m hm hd
  refine hl.data.view_append hlt hn hdone hfills hm (fun hm => h.error m hm hd) ?_
  rintro rfl
  exact hx hd

/-- One more node whose errors end here: only its loss is counted. -/
theorem step_of_none (hl : l.Fits g) (hgt : g.Trainable)
    (hvalue : ∀ n < g.numNodes, ∀ i < g.width n,
      w.banks.value.view (l.dataAt n) i = Graph.value (l.setting g env) hg n i)
    (hlt : ∀ m ∈ done, m < g.numNodes) (hn : n < g.numNodes) (hdone : n ∉ done)
    (hd : g.derivative? n = none) :
    Swept env l loss hg w (done ++ [n]) (Tape.run env (Tape.lossInstrs g l loss n false) s) := by
  have hgrads : ∀ o, (g.tensor? o).isSome = true →
      (g.sink o ∈ done ++ [n] ↔ g.sink o ∈ done) := by
    intro o ho
    rw [List.mem_append, List.mem_singleton, or_iff_left (hgt.sink_ne hn hd ho)]
  have hends : ∀ {x : Nat → α}, (g.derivative? n).isSome = true → ∀ i < g.width n,
      x i = Graph.delta (l.setting g env) loss (l.targets env) hg n i := by
    simp [hd]
  cases hisout : g.isOutput n with
  | false =>
    simp only [Tape.lossInstrs, hisout, Bool.false_eq_true, if_false, Tape.run_nil]
    have hsame : s.banks.error.Fills (l.dataAt n) (g.width n) (l.errors s n) s.banks.error :=
      ⟨rfl, fun _ _ => rfl, fun _ _ => rfl⟩
    refine { h with
      error := h.error_append hl hlt hn hdone hsame hends, grads := ?_, loss_eq := ?_ }
    · intro o ho i hi
      simp only [hgrads o ho]
      exact h.grads o ho i hi
    · rw [List.foldl_append, ← h.loss_eq]
      simp only [List.foldl_cons, List.foldl_nil, Graph.addLoss, hisout, Bool.false_eq_true,
        if_false]
  | true =>
    simp only [Tape.lossInstrs, hisout, if_true, Tape.run_cons, Tape.run_nil]
    have hslopes := collects_outputError_first env (s := s)
      (by rw [h.room.error rfl]; exact hl.data.le n hn) loss (l.dataAt n) (l.targetAt n)
    refine ⟨hslopes.room h.room, hslopes.value_eq.trans h.value_eq, hslopes.z_eq.trans h.z_eq,
      h.error_append hl hlt hn hdone hslopes.fills hends, ?_, fun o ho i hi => ?_, ?_⟩
    · rw [hslopes.grads_eq, h.grads_size]
    · simp only [hgrads o ho, hslopes.grads_eq]
      exact h.grads o ho i hi
    · rw [List.foldl_append, ← h.loss_eq, hslopes.loss_eq]
      simp only [List.foldl_cons, List.foldl_nil, Graph.addLoss, hisout, if_true]
      rw [← loss.value_congr (fun i hi => h.values_eq hvalue hn hi) fun _ _ => rfl]
      rfl

/-- The instructions up to the derivative of its activation leave the error of a node, once the
nodes that it feeds are done. -/
theorem collects_delta (hl : l.Fits g) (hgt : g.Trainable)
    (hvalue : ∀ n < g.numNodes, ∀ i < g.width n,
      w.banks.value.view (l.dataAt n) i = Graph.value (l.setting g env) hg n i)
    (hz : ∀ n < g.numNodes, ∀ i < g.width n,
      w.banks.z.view (l.dataAt n) i = Graph.pre (l.setting g env) hg n i)
    (hn : n < g.numNodes) (hfeeds : ∀ q, g.Feeds n q → q ∈ done) {derivative : α → α}
    (hd : g.derivative? n = some derivative) :
    s.Collects (l.dataAt n) (g.width n)
      (Graph.delta (l.setting g env) loss (l.targets env) hg n)
      (g.addLoss loss (Graph.value (l.setting g env) hg) (l.targets env) s.loss n)
      (Instr.run env (Tape.run env (((g.efferents n).map (l.edgeOf g)).zipIdx.map
          (Tape.productBackInstr l n) ++ Tape.lossInstrs g l loss n !(g.efferents n).isEmpty) s)
        (.applyDerivative derivative (l.dataAt n) (l.dataAt n) (g.width n))) := by
  have hsize : l.dataAt n + g.width n ≤ s.banks.error.size := by
    rw [h.room.error rfl]
    exact hl.data.le n hn
  have htemp : g.width n ≤ s.banks.temp.size := by
    rw [h.room.temp]
    exact hl.width_le n hn
  have hproducts : ∀ i, ∀ e ∈ g.efferents n,
      g.productBack (l.setting g env) (l.errors s) e i = g.productBack (l.setting g env)
        (Graph.delta (l.setting g env) loss (l.targets env) hg) e i := by
    intro i e he
    have hq := Graph.feeds_of_mem_efferents he
    have hinner := hgt.derivative _ hq.lt.2 (Graph.isSource_of_feeds hq)
    exact Graph.productBack_congr (h.error _ (hfeeds _ hq) hinner) i
  have hterms := (collects_terms env hl hg hn loss hsize htemp (hgt.output n hn)).congr
    (y := fun i => Scalar.total (Graph.errorTerms (l.setting g env) loss (l.targets env) hg
      (Graph.delta (l.setting g env) loss (l.targets env) hg) n i)) fun i hi => by
    rw [Graph.errorTerms, List.map_congr_left (hproducts i),
      loss.slope_congr (h.values_eq hvalue hn hi) rfl]
  rw [Graph.addLoss_congr (fun i hi => h.values_eq hvalue hn hi) fun _ _ _ => rfl] at hterms
  have hscaled := collects_applyDerivative env (hterms.fills.size_eq ▸ hsize) derivative
    (l.dataAt n)
  rw [hterms.loss_eq] at hscaled
  refine (hterms.trans hscaled).congr fun i hi => ?_
  rw [hterms.fills.view_eq i hi, hterms.z_eq, h.z_eq, hz n hn i hi, Graph.delta_eq_mul hg hd]

/-- One more node that errors are followed through: its error is final before any gradient is
taken from it. -/
theorem step_of_some (hl : l.Fits g) (hgt : g.Trainable)
    (hvalue : ∀ n < g.numNodes, ∀ i < g.width n,
      w.banks.value.view (l.dataAt n) i = Graph.value (l.setting g env) hg n i)
    (hz : ∀ n < g.numNodes, ∀ i < g.width n,
      w.banks.z.view (l.dataAt n) i = Graph.pre (l.setting g env) hg n i)
    (hgrads : w.grads.size = l.paramLen) (hlt : ∀ m ∈ done, m < g.numNodes)
    (hn : n < g.numNodes) (hdone : n ∉ done) (hfeeds : ∀ q, g.Feeds n q → q ∈ done)
    {derivative : α → α} (hd : g.derivative? n = some derivative) :
    Swept env l loss hg w (done ++ [n]) (Tape.run env (Tape.reverseNode g l loss n) s) := by
  have hfinal := h.collects_delta hl hgt hvalue hz hn hfeeds hd
  rw [Tape.reverseNode_of_some hl hn loss hd, Tape.run_append, Tape.run_cons]
  generalize Instr.run env (Tape.run env (((g.efferents n).map (l.edgeOf g)).zipIdx.map
      (Tape.productBackInstr l n) ++ Tape.lossInstrs g l loss n !(g.efferents n).isEmpty) s)
    (.applyDerivative derivative (l.dataAt n) (l.dataAt n) (g.width n)) = s' at hfinal ⊢
  have hadds := adds_gradients env (s := s') hl (Graph.nodup_entering n)
    (fun o ho => (Graph.mem_entering.1 ho).1)
    (by rw [hfinal.grads_eq, h.grads_size, hgrads])
  refine ⟨?_, ?_, ?_, ?_, ?_, ?_, ?_⟩
  · rw [hadds.banks_eq]
    exact hfinal.room h.room
  · rw [hadds.banks_eq, hfinal.value_eq, h.value_eq]
  · rw [hadds.banks_eq, hfinal.z_eq, h.z_eq]
  · rw [hadds.banks_eq]
    exact h.error_append hl hlt hn hdone hfinal.fills fun _ _ _ => rfl
  · rw [hadds.grads_size, hfinal.grads_eq, h.grads_size]
  · intro o ho i hi
    rw [hadds.view_eq o ho i hi, hfinal.grads_eq, h.grads o ho i hi]
    by_cases hsink : g.sink o = n
    · have hmem : o ∈ g.entering n := Graph.mem_entering.2 ⟨ho, hsink⟩
      have hold : g.sink o ∉ done := hsink ▸ hdone
      have hnew : g.sink o ∈ done ++ [n] := by simp [hsink]
      rw [if_pos hmem, if_neg hold, if_pos hnew]
      refine congrArg _ (Graph.contribution_congr ho hi (fun p hp r hr => ?_) fun c hc => ?_)
      · rw [Layout.values, hfinal.value_eq]
        exact h.values_eq hvalue hp.lt.1 hr
      · rw [hsink] at hc ⊢
        exact hfinal.fills.view_eq c hc
    · have hmem : o ∉ g.entering n := fun hmem => hsink (Graph.mem_entering.1 hmem).2
      rw [if_neg hmem]
      simp only [List.mem_append, List.mem_singleton, hsink, or_false]
  · rw [hadds.loss_eq, hfinal.loss_eq, List.foldl_append, ← h.loss_eq]
    rfl

end Swept

/-- A sweep after an evaluation computes the errors of all nodes and adds the gradient of every
parameter, from any contents of the bank of errors. -/
theorem swept_reverse {hg : g.Acyclic} {tape : Tape α} (hl : l.Fits g) (hgt : g.Trainable)
    (hr : Tape.reverse g l loss = .ok tape) (hroom : w.banks.Room l .training)
    (hvalue : ∀ n < g.numNodes, ∀ i < g.width n,
      w.banks.value.view (l.dataAt n) i = Graph.value (l.setting g env) hg n i)
    (hz : ∀ n < g.numNodes, ∀ i < g.width n,
      w.banks.z.view (l.dataAt n) i = Graph.pre (l.setting g env) hg n i)
    (hgrads : w.grads.size = l.paramLen) :
    Swept env l loss hg w g.settle.1 (Tape.run env tape w) := by
  obtain ⟨-, hlength, rfl⟩ := Tape.reverse_spec hr
  refine (Graph.linearizes_settle hlength).induction
    (motive := fun done => Swept env l loss hg w done
      (Tape.run env (done.flatMap (Tape.reverseNode g l loss)) w)) ?_ ?_
  · refine ⟨hroom, rfl, rfl, fun n hn => absurd hn List.not_mem_nil, rfl, fun o _ i _ => ?_, rfl⟩
    rw [if_neg List.not_mem_nil]
    rfl
  · intro done n hlt hn hdone hfeeds h
    rw [List.flatMap_append, Tape.run_append, List.flatMap_singleton]
    cases hd : g.derivative? n with
    | none =>
      rw [Tape.reverseNode_of_none hl hn loss hd]
      exact h.step_of_none hl hgt hvalue hlt hn hdone hd
    | some derivative => exact h.step_of_some hl hgt hvalue hz hgrads hlt hn hdone hfeeds hd

/-! ## Evaluation and sweep -/

/-- What an evaluation in training and a reverse sweep after it leave, whatever was in the banks:
values, pre-activations and errors in their places, every gradient grown by one contribution, and
the losses of the output nodes added in the order in which they settle. -/
structure Trained (env : Env α) (l : Layout) (loss : Loss) (hg : g.Acyclic) (w s : Work α) :
    Prop where
  room : s.banks.Room l .training
  value : ∀ n < g.numNodes, ∀ i < g.width n,
    s.banks.value.view (l.dataAt n) i = Graph.value (l.setting g env) hg n i
  z : ∀ n < g.numNodes, ∀ i < g.width n,
    s.banks.z.view (l.dataAt n) i = Graph.pre (l.setting g env) hg n i
  error : ∀ n < g.numNodes, g.isSource n = false → ∀ i < g.width n,
    s.banks.error.view (l.dataAt n) i =
      Graph.delta (l.setting g env) loss (l.targets env) hg n i
  grads_size : s.grads.size = w.grads.size
  grads : ∀ o, (g.tensor? o).isSome = true → ∀ i < g.extent o,
    s.grads.view (l.slotOf o).flat i = w.grads.view (l.slotOf o).flat i +
      g.contribution (Graph.value (l.setting g env) hg)
        (Graph.delta (l.setting g env) loss (l.targets env) hg) o i
  loss_eq : s.loss = g.settle.1.foldl
    (g.addLoss loss (Graph.value (l.setting g env) hg) (l.targets env)) w.loss

theorem trained_run {schedule : Schedule} {tape : Tape α} (hs : g.schedule = .ok schedule)
    (hshape : g.shapeFault? = none) (hl : l.Fits g) (hg : g.Acyclic)
    (hr : Tape.reverse g l loss = .ok tape) (env : Env α) (hroom : w.banks.Room l .training)
    (hgrads : w.grads.size = l.paramLen) :
    Trained env l loss hg w
      (Tape.run env tape (Tape.run env (Tape.evaluation g schedule l .training) w)) := by
  have hgt := Graph.trainable_of_reverse hs hshape hr
  have horder := Graph.linearizes_of_schedule hs
  have hsettle := Graph.linearizes_settle (Tape.reverse_spec hr).2.1
  have heval := evaluated_evaluation hs hl hg env hroom
  have hvalue : ∀ n < g.numNodes, ∀ i < g.width n, _ :=
    fun n hn => heval.value n ((horder.mem_iff n).2 hn)
  have hz : ∀ n < g.numNodes, ∀ i < g.width n, _ :=
    fun n hn => heval.z rfl n ((horder.mem_iff n).2 hn)
  have hswept := swept_reverse hl hgt hr heval.room hvalue hz (heval.grads_eq ▸ hgrads)
  refine ⟨hswept.room, ?_, ?_, ?_, ?_, ?_, ?_⟩
  · rw [hswept.value_eq]
    exact hvalue
  · rw [hswept.z_eq]
    exact hz
  · exact fun n hn hsource =>
      hswept.error n ((hsettle.mem_iff n).2 hn) (hgt.derivative n hn hsource)
  · rw [hswept.grads_size, heval.grads_eq]
  · intro o ho i hi
    rw [hswept.grads o ho i hi, if_pos ((hsettle.mem_iff _).2 (Graph.sink_lt ho)),
      heval.grads_eq]
  · rw [hswept.loss_eq, heval.loss_eq]

end Sweep

end GraphTape
