import GraphTape.Proofs.Graph.Meaning
import GraphTape.Proofs.Memory.Layout
import GraphTape.Tape.Evaluation
import GraphTape.Tape.Run

/-!
# What evaluation tapes compute

An evaluation tape leaves the value of every node in its place, whatever the banks held before.
The proof goes along the schedule. A node's pre-activation is gathered from the values of its
predecessors, which stand there already (`gathers_gather`); it is written to a stretch that no
settled node uses, so what stands there stays (`Evaluated.step`).

* `Banks.Room`: the banks are as long as the layout asks for.
* `Layout.setting`: the parameters and inputs a run reads, by owner and by node.
* `evaluated_evaluation`: what a whole tape computes, in both modes.
-/

namespace GraphTape

variable {α : Type} [Scalar α]

/-- The banks of a run are as long as the layout asks for. -/
structure Banks.Room (b : Banks α) (l : Layout) (mode : Mode) : Prop where
  value : b.value.size = l.dataLen
  pre : b.pre.size = l.scratchLen
  temp : b.temp.size = l.scratchLen
  z : mode = .training → b.z.size = l.dataLen
  error : mode = .training → b.error.size = l.dataLen

/-- The setting in which a run evaluates a graph. -/
def Layout.setting (l : Layout) (g : Graph α) (env : Env α) : Setting α :=
  g.setting (fun o => env.params (l.slotOf o)) fun n i => env.input (l.inputAt n + i)

/-- The values of the nodes as the bank holds them. -/
def Layout.values (l : Layout) (s : Work α) (n : Nat) : Nat → α :=
  s.banks.value.view (l.dataAt n)

/-! ## Pre-activations -/

/-- The bank of a pre-activation vector. -/
def Banks.preBank (b : Banks α) : PreSlot → Buffer α
  | .scratch => b.pre
  | .retained _ => b.z

/-- The first element of a pre-activation vector in its bank. -/
def PreSlot.start : PreSlot → Nat
  | .scratch => 0
  | .retained offset => offset

theorem Banks.preView_eq (b : Banks α) (pre : PreSlot) :
    b.preView pre = (b.preBank pre).view pre.start := by
  cases pre <;> rfl

/-- The pre-activation vector holds `x` afterwards, and all that a run returns is as before. -/
structure Work.Gathers (s : Work α) (pre : PreSlot) (len : Nat) (x : Nat → α) (s' : Work α) :
    Prop where
  fills : (s.banks.preBank pre).Fills pre.start len x (s'.banks.preBank pre)
  value_eq : s'.banks.value = s.banks.value
  error_eq : s'.banks.error = s.banks.error
  pre_size : s'.banks.pre.size = s.banks.pre.size
  z_size : s'.banks.z.size = s.banks.z.size
  temp_size : s'.banks.temp.size = s.banks.temp.size
  grads_eq : s'.grads = s.grads
  loss_eq : s'.loss = s.loss

namespace Work.Gathers

variable {s s' s'' : Work α} {pre : PreSlot} {len : Nat} {x y : Nat → α}

theorem congr (h : s.Gathers pre len x s') (hxy : ∀ i < len, x i = y i) :
    s.Gathers pre len y s' :=
  { h with fills := h.fills.congr hxy }

/-- Of two gatherings into one vector the second one counts. -/
theorem trans (h : s.Gathers pre len x s') (h' : s'.Gathers pre len y s'') :
    s.Gathers pre len y s'' where
  fills := h.fills.trans h'.fills
  value_eq := h'.value_eq.trans h.value_eq
  error_eq := h'.error_eq.trans h.error_eq
  pre_size := h'.pre_size.trans h.pre_size
  z_size := h'.z_size.trans h.z_size
  temp_size := h'.temp_size.trans h.temp_size
  grads_eq := h'.grads_eq.trans h.grads_eq
  loss_eq := h'.loss_eq.trans h.loss_eq

theorem preView_eq (h : s.Gathers pre len x s') {i : Nat} (hi : i < len) :
    s'.banks.preView pre i = x i := by
  rw [Banks.preView_eq]
  exact h.fills.view_eq i hi

theorem preBank_size (h : s.Gathers pre len x s') :
    (s'.banks.preBank pre).size = (s.banks.preBank pre).size := h.fills.size_eq

end Work.Gathers

section Instructions

variable {s : Work α} (env : Env α) {pre : PreSlot} {len : Nat} {x : Nat → α}

theorem gathers_modifyPre {f : Buffer α → Nat → Buffer α}
    (h : (s.banks.preBank pre).Fills pre.start len x (f (s.banks.preBank pre) pre.start)) :
    s.Gathers pre len x { s with banks := s.banks.modifyPre pre f } := by
  cases pre with
  | scratch => exact ⟨h, rfl, rfl, h.size_eq, rfl, rfl, rfl, rfl⟩
  | retained offset => exact ⟨h, rfl, rfl, rfl, h.size_eq, rfl, rfl, rfl⟩

theorem gathers_loadInput (h : pre.start + len ≤ (s.banks.preBank pre).size) (src : Nat) :
    s.Gathers pre len (fun i => env.input (src + i))
      (Instr.run env s (.loadInput src pre len)) :=
  gathers_modifyPre (Buffer.copyFrom_fills h _)

theorem gathers_addBias (h : pre.start + len ≤ (s.banks.preBank pre).size) (bias : Slot) :
    s.Gathers pre len (fun i => s.banks.preView pre i + env.params bias i)
      (Instr.run env s (.addBias bias pre len)) := by
  rw [Banks.preView_eq]
  exact gathers_modifyPre (Buffer.addEach_fills h _)

/-- The first product is written over whatever the vector held. -/
theorem gathers_matMul_first (h : pre.start + len ≤ (s.banks.preBank pre).size) (src : Nat)
    (weight : Slot) (rows : Nat) :
    s.Gathers pre len
      (fun c => Scalar.sum rows fun r =>
        s.banks.value.view src r * env.params weight (r * len + c))
      (Instr.run env s (.matMul src weight rows len pre false)) :=
  gathers_modifyPre (Buffer.setRowProduct_fills h _ _ rows)

/-- A later product is added to what the vector holds, by way of the bank `temp`. -/
theorem gathers_matMul_later (h : pre.start + len ≤ (s.banks.preBank pre).size)
    (htemp : len ≤ s.banks.temp.size) (src : Nat) (weight : Slot) (rows : Nat) :
    s.Gathers pre len
      (fun c => s.banks.preView pre c + Scalar.sum rows fun r =>
        s.banks.value.view src r * env.params weight (r * len + c))
      (Instr.run env s (.matMul src weight rows len pre true)) := by
  rw [Banks.preView_eq]
  let temp := s.banks.temp.setRowProduct 0 (s.banks.value.view src) (env.params weight) rows len
  have hproduct : s.banks.temp.Fills 0 len _ temp :=
    Buffer.setRowProduct_fills (by omega) (s.banks.value.view src) (env.params weight) rows
  let s' : Work α := { s with banks := { s.banks with temp } }
  have hbank : s'.banks.preBank pre = s.banks.preBank pre := by cases pre <;> rfl
  have hfills := (Buffer.addEach_fills (hbank ▸ h) (temp.view 0)).congr
    (g := fun c => (s.banks.preBank pre).view pre.start c + Scalar.sum rows fun r =>
      s.banks.value.view src r * env.params weight (r * len + c)) fun i hi => by
    rw [hproduct.view_eq i hi]
  have hadd := gathers_modifyPre (s := s')
    (f := fun b start => b.addEach start len (temp.view 0)) (hbank ▸ hfills)
  refine { hadd with fills := hbank ▸ hadd.fills, temp_size := hadd.temp_size.trans ?_ }
  exact hproduct.size_eq

end Instructions

/-! ## Nodes -/

section Nodes

variable {l : Layout} {g : Graph α} {mode : Mode} (env : Env α) {s s' : Work α} {n : Nat}

/-- The instruction for the `i`th edge into a node. -/
def Tape.productInstr (l : Layout) (pre : PreSlot) (edge : EdgeSlot × Nat) : Instr α :=
  .matMul (l.dataAt edge.1.src) edge.1.weight edge.1.rows edge.1.cols pre (decide (0 < edge.2))

/-- The products over the remaining edges are added one after the other. -/
theorem gathers_products {pre : PreSlot} (hpre : pre.start + g.width n ≤ (s.banks.preBank pre).size)
    (htemp : g.width n ≤ s.banks.temp.size) (front : List Nat) (hfront : front ≠ [])
    {es : List Nat} (hdst : ∀ e ∈ es, g.dst e = n) {k : Nat}
    (h : s.Gathers pre (g.width n)
      (fun c => Scalar.total (front.map fun e =>
        g.product (l.setting g env) (l.values s) e c)) s') :
    s.Gathers pre (g.width n)
      (fun c => Scalar.total ((front ++ es).map fun e =>
        g.product (l.setting g env) (l.values s) e c))
      (Tape.run env (((es.map (l.edgeOf g)).zipIdx (k + 1)).map (Tape.productInstr l pre)) s') := by
  induction es generalizing front k s' with
  | nil =>
    rw [List.append_nil]
    exact h
  | cons e es ih =>
    have hcols : g.width (g.dst e) = g.width n := by rw [hdst e List.mem_cons_self]
    have hstep := gathers_matMul_later env (s := s')
      (hcols ▸ h.preBank_size ▸ hpre) (hcols ▸ h.temp_size ▸ htemp) (l.dataAt (g.src e))
      (l.slotOf (.weight e)) (g.width (g.src e))
    rw [hcols] at hstep
    have hnext := h.trans (hstep.congr (y := fun c => Scalar.total ((front ++ [e]).map fun e =>
        g.product (l.setting g env) (l.values s) e c)) fun c hc => by
      rw [h.preView_eq hc, h.value_eq, List.map_append, List.map_singleton,
        Scalar.total_concat (by simpa using hfront), ← hcols]
      rfl)
    have hrest := ih (front ++ [e]) (by simp)
      (fun f hf => hdst f (List.mem_cons_of_mem e hf)) (k := k + 1) hnext
    rw [List.append_assoc, List.singleton_append] at hrest
    rw [List.map_cons, List.zipIdx_cons, List.map_cons, Tape.run_cons]
    have hinstr : Tape.productInstr (α := α) l pre (l.edgeOf g e, k + 1) =
        .matMul (l.dataAt (g.src e)) (l.slotOf (.weight e)) (g.width (g.src e)) (g.width n) pre
          true := by
      rw [← hcols]
      simp only [Tape.productInstr, Layout.edgeOf, Nat.zero_lt_succ, decide_true]
    rw [hinstr]
    exact hrest

/-- The pre-activation of a node is gathered from the values of the nodes that feed it. -/
theorem gathers_gather (hl : l.Fits g) (hn : n < g.numNodes) {pre : PreSlot}
    (hpre : pre.start + g.width n ≤ (s.banks.preBank pre).size)
    (htemp : g.width n ≤ s.banks.temp.size) :
    s.Gathers pre (g.width n) (g.preOf (l.setting g env) (l.values s) n)
      (Tape.run env (Tape.gather l pre (l.nodeOf g n)) s) := by
  cases hsource : g.isSource n with
  | true =>
    have hload := gathers_loadInput env hpre (l.inputAt n)
    simp only [Tape.gather, Layout.nodeOf, hsource, if_true, Tape.run_cons, Tape.run_nil]
    refine hload.congr fun i _ => ?_
    rw [Graph.preOf, if_pos hsource]
    rfl
  | false =>
    obtain ⟨e, es, hes⟩ : ∃ e es, g.afferents n = e :: es :=
      List.exists_cons_of_ne_nil fun hnil => by simp [Graph.isSource, hnil] at hsource
    have hdst : ∀ f ∈ e :: es, g.dst f = n := fun f hf => (g.mem_afferents.1 (hes ▸ hf)).2
    have hcols : g.width (g.dst e) = g.width n := by rw [hdst e List.mem_cons_self]
    have hfirst := gathers_matMul_first env (hcols ▸ hpre) (l.dataAt (g.src e))
      (l.slotOf (.weight e)) (g.width (g.src e))
    rw [hcols] at hfirst
    have hproducts := gathers_products env (l := l) hpre htemp [e] (by simp)
      (fun f hf => hdst f (List.mem_cons_of_mem e hf)) (k := 0)
      (hfirst.congr fun c _ => by rw [← hcols]; rfl)
    rw [List.singleton_append, ← hes] at hproducts
    have hgather : Tape.gather (α := α) l pre (l.nodeOf g n) =
        ((l.afferentSlots n).zipIdx.map (Tape.productInstr l pre)) ++
          ((g.bias? n).map fun _ => l.slotOf (.bias n)).toList.map fun bias =>
            .addBias bias pre (g.width n) := by
      simp only [Tape.gather, Layout.nodeOf, hsource]
      rfl
    have hinstr : Tape.productInstr (α := α) l pre (l.edgeOf g e, 0) =
        .matMul (l.dataAt (g.src e)) (l.slotOf (.weight e)) (g.width (g.src e)) (g.width n) pre
          false := by
      rw [← hcols]
      rfl
    rw [hgather, Tape.run_append, hl.afferentSlots_eq hn, hes, List.map_cons, List.zipIdx_cons,
      List.map_cons, Tape.run_cons, hinstr]
    cases hbias : g.bias? n with
    | none =>
      refine hproducts.congr fun i _ => ?_
      simp [Graph.preOf, hsource, hbias]
    | some t =>
      refine hproducts.trans ((gathers_addBias env (hproducts.preBank_size ▸ hpre) _).congr
        fun i hi => ?_)
      rw [hproducts.preView_eq hi]
      simp [Graph.preOf, hsource, hbias, Layout.setting, Graph.setting]

omit [Scalar α] in
/-- When the stretch of one more node is filled, those of the others stay in place. -/
theorem Layout.Tiles.view_append [Zero α] {P : Nat → Prop} {size start : Nat → Nat} {total : Nat}
    (ht : Tiles P size start total) {done : List Nat} (hlt : ∀ m ∈ done, P m) (hn : P n)
    (hdone : n ∉ done) {x : Nat → α} {b b' : Buffer α} (hfills : b.Fills (start n) (size n) x b')
    {y : Nat → Nat → α} {m : Nat} (hm : m ∈ done ++ [n])
    (hold : m ∈ done → ∀ i < size m, b.view (start m) i = y m i)
    (hnew : m = n → ∀ i < size n, x i = y n i) :
    ∀ i < size m, b'.view (start m) i = y m i := by
  intro i hi
  rcases List.mem_append.1 hm with hm | hm
  · have hne : m ≠ n := fun heq => hdone (heq ▸ hm)
    rw [← hold hm i hi]
    exact hfills.view_of_disjoint (ht.disjoint m n (hlt m hm) hn hne) hi
  · obtain rfl := List.mem_singleton.1 hm
    rw [← hnew rfl i hi]
    exact hfills.view_eq i hi

omit [Scalar α] in
/-- The banks have room for the pre-activation of any node. -/
theorem Banks.Room.preSlot_le {b : Banks α} (h : b.Room l mode) (hl : l.Fits g)
    (hn : n < g.numNodes) : (Tape.preSlot mode (l.nodeOf g n)).start + g.width n ≤
      (b.preBank (Tape.preSlot mode (l.nodeOf g n))).size := by
  cases mode with
  | inference =>
    have hsize := h.pre
    have hwidth := hl.width_le n hn
    simp only [Tape.preSlot, PreSlot.start, Banks.preBank]
    omega
  | training =>
    have hsize := h.z rfl
    have hdata := hl.data.le n hn
    simp only [Tape.preSlot, PreSlot.start, Banks.preBank, Layout.nodeOf]
    omega

/-- The nodes `done` have their values in place, and in training their pre-activations; what an
evaluation has no business with is as it was in `w`. -/
structure Evaluated (env : Env α) (l : Layout) (hg : g.Acyclic) (mode : Mode) (w : Work α)
    (done : List Nat) (s : Work α) : Prop where
  room : s.banks.Room l mode
  value : ∀ n ∈ done, ∀ i < g.width n,
    s.banks.value.view (l.dataAt n) i = Graph.value (l.setting g env) hg n i
  z : mode = .training → ∀ n ∈ done, ∀ i < g.width n,
    s.banks.z.view (l.dataAt n) i = Graph.pre (l.setting g env) hg n i
  z_size : s.banks.z.size = w.banks.z.size
  error_eq : s.banks.error = w.banks.error
  grads_eq : s.grads = w.grads
  loss_eq : s.loss = w.loss

variable {env} in
/-- One more node: its instructions read the values of settled nodes and write to no place of
theirs. -/
theorem Evaluated.step {hg : g.Acyclic} {w : Work α} {done : List Nat} (hl : l.Fits g)
    (h : Evaluated env l hg mode w done s) (hlt : ∀ m ∈ done, m < g.numNodes) (hn : n < g.numNodes)
    (hdone : n ∉ done) (hfeeds : ∀ p, g.Feeds p n → p ∈ done) :
    Evaluated env l hg mode w (done ++ [n]) (Tape.run env (Tape.evaluateNode g l mode n) s) := by
  have hgather := gathers_gather env (s := s) hl hn (h.room.preSlot_le hl hn)
    (by rw [h.room.temp]; exact hl.width_le n hn)
  have hpre : ∀ i, g.preOf (l.setting g env) (l.values s) n i =
      Graph.pre (l.setting g env) hg n i :=
    Graph.preOf_congr fun p hp => h.value p (hfeeds p hp)
  replace hgather := hgather.congr fun i _ => hpre i
  rw [Tape.evaluateNode, hl.node n hn]
  simp only [Tape.run_append, Tape.run_cons, Tape.run_nil]
  generalize Tape.run env (Tape.gather l (Tape.preSlot mode (l.nodeOf g n)) (l.nodeOf g n)) s = s'
    at hgather ⊢
  have hactivate : s'.banks.value.Fills (l.dataAt n) (g.width n)
      (Graph.value (l.setting g env) hg n)
      ((g.activation n).apply s'.banks.value (l.dataAt n) (g.width n)
        (s'.banks.preView (Tape.preSlot mode (l.nodeOf g n)))) := by
    have hsize : l.dataAt n + g.width n ≤ s'.banks.value.size := by
      rw [hgather.value_eq, h.room.value]
      exact hl.data.le n hn
    refine (Activation.apply_fills _ hsize).congr fun i hi => ?_
    rw [Graph.value_eq]
    exact Activation.vector_congr _ (fun j hj => hgather.preView_eq hj) hi
  refine ⟨⟨?_, ?_, ?_, ?_, ?_⟩, ?_, ?_, hgather.z_size.trans h.z_size,
    hgather.error_eq.trans h.error_eq, hgather.grads_eq.trans h.grads_eq,
    hgather.loss_eq.trans h.loss_eq⟩
  · exact hactivate.size_eq.trans (hgather.value_eq ▸ h.room.value)
  · exact hgather.pre_size.trans h.room.pre
  · exact hgather.temp_size.trans h.room.temp
  · exact fun hmode => hgather.z_size.trans (h.room.z hmode)
  · exact fun hmode => hgather.error_eq ▸ h.room.error hmode
  · intro m hm
    refine hl.data.view_append hlt hn hdone hactivate hm (fun hm i hi => ?_) fun _ _ _ => rfl
    rw [hgather.value_eq]
    exact h.value m hm i hi
  · rintro rfl m hm
    have hfills : s.banks.z.Fills (l.dataAt n) (g.width n) _ s'.banks.z := hgather.fills
    exact hl.data.view_append hlt hn hdone hfills hm (h.z rfl m) fun _ _ _ => rfl

end Nodes

/-! ## Whole tapes -/

/-- An evaluation tape computes the values of all nodes, and in training their pre-activations,
from any contents of the banks. -/
theorem evaluated_evaluation {g : Graph α} {schedule : Schedule} {l : Layout}
    (hs : g.schedule = .ok schedule) (hl : l.Fits g) (hg : g.Acyclic) (env : Env α) {mode : Mode}
    {w : Work α} (hw : w.banks.Room l mode) :
    Evaluated env l hg mode w schedule.order
      (Tape.run env (Tape.evaluation g schedule l mode) w) := by
  refine (Graph.linearizes_of_schedule hs).induction
    (motive := fun done => Evaluated env l hg mode w done
      (Tape.run env (done.flatMap (Tape.evaluateNode g l mode)) w)) ?_ ?_
  · refine ⟨hw, ?_, ?_, rfl, rfl, rfl, rfl⟩
    · exact fun n hn => absurd hn List.not_mem_nil
    · exact fun _ n hn => absurd hn List.not_mem_nil
  · intro done n hlt hn hdone hfeeds h
    rw [List.flatMap_append, Tape.run_append, List.flatMap_singleton]
    exact h.step hl hlt hn hdone hfeeds

end GraphTape
