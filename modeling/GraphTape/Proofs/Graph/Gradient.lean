import Mathlib.Algebra.BigOperators.Group.Finset.Sigma
import Mathlib.Algebra.BigOperators.Ring.Finset
import Mathlib.Algebra.Order.Field.Rat
import Mathlib.Tactic.Ring
import GraphTape.Proofs.Scalar.Dual
import GraphTape.Proofs.Scalar.Exact
import GraphTape.Proofs.Tape.Reverse

/-!
# The gradient of a graph

The derivative of the loss of a sample along a direction in the space of parameters, in two ways.
Forward, the graph is evaluated over dual numbers, with the derivative of each activation and
each loss. In reverse, the contributions of back propagation are weighed with the direction and
added up. In exact arithmetic the two agree (`eps_sampleLoss`).

Neither side of the proof needs an induction along the graph. At every node the derivatives of
the values are paired with the errors, once by way of the edges that leave the node and once by
way of those that enter it. Summed over all nodes, the flow along the edges is the same on both
sides and cancels; the losses are left on one side and the parameters on the other.
-/

namespace GraphTape

/-- The loss of dual values, by the derivative of the loss. -/
def Loss.dual {α : Type} [Scalar α] (loss : Loss) (n : Nat) (a : Nat → Dual α) (y : Nat → α) :
    Dual α where
  re := loss.value n (fun i => (a i).re) y
  eps := Scalar.sum n fun i => (a i).eps * loss.slope n (fun i => (a i).re) y i

theorem Loss.dual_congr {α : Type} [Scalar α] (loss : Loss) {n : Nat} {a a' : Nat → Dual α}
    {y y' : Nat → α} (ha : ∀ i < n, a i = a' i) (hy : ∀ i < n, y i = y' i) :
    loss.dual n a y = loss.dual n a' y' := by
  have hre : ∀ i < n, (a i).re = (a' i).re := fun i hi => by rw [ha i hi]
  rw [dual, dual, loss.value_congr hre hy]
  refine congrArg _ (Scalar.sum_congr fun i hi => ?_)
  have hslope : loss.slope n (fun i => (a i).re) y i = loss.slope n (fun i => (a' i).re) y' i :=
    loss.slope_congr (hre i hi) (hy i hi)
  rw [ha i hi, hslope]

namespace Graph

variable {α : Type} [Scalar α]

/-- The setting in which a graph is evaluated along a direction: the inputs stay, and every
activation has its derivative, that of a source being constant. -/
def dualSetting (g : Graph α) (param direction : Owner → Nat → α) (input : Nat → Nat → α) :
    Setting (Dual α) where
  param o i := ⟨param o i, direction o i⟩
  input n i := .const (input n i)
  activate n x i :=
    { re := (g.activation n).vector (g.width n) (fun j => (x j).re) i
      eps := (g.derivative? n).elim 0 fun derivative => (x i).eps * derivative (x i).re }

variable {g : Graph α}

/-- The loss of a sample, over all output nodes. -/
def sampleLoss (σ : Setting (Dual α)) (loss : Loss) (target : Nat → Nat → α) (hg : g.Acyclic) :
    Dual α :=
  Scalar.total (g.outputs.map fun n => loss.dual (g.width n) (value σ hg n) (target n))

/-- The loss of a sample depends on what the graph can tell apart. -/
theorem sampleLoss_congr {σ σ' : Setting (Dual α)} {target target' : Nat → Nat → α} (loss : Loss)
    (hg : g.Acyclic) (h : Setting.Agree g σ σ')
    (htarget : ∀ n < g.numNodes, g.isOutput n = true → ∀ i < g.width n,
      target n i = target' n i) :
    sampleLoss σ loss target hg = sampleLoss σ' loss target' hg := by
  refine congrArg _ (List.map_congr_left fun n hn => ?_)
  rw [outputs, List.mem_filter, mem_nodeIds] at hn
  exact loss.dual_congr (fun i hi => value_congr h hg hn.1 hi) (htarget n hn.1 hn.2)

/-- Settings along one direction agree if their inputs do. -/
theorem agree_dualSetting {param direction : Owner → Nat → α} {input input' : Nat → Nat → α}
    (hinput : ∀ n < g.numNodes, g.isSource n = true → ∀ i < g.width n, input n i = input' n i) :
    Setting.Agree g (g.dualSetting param direction input)
      (g.dualSetting param direction input') where
  param _ _ _ _ := rfl
  input n hn hsource i hi := congrArg Dual.const (hinput n hn hsource i hi)
  activate n _ x y hxy i hi := by
    have hvector : (g.activation n).vector (g.width n) (fun j => (x j).re) i =
        (g.activation n).vector (g.width n) (fun j => (y j).re) i :=
      Activation.vector_congr _ (fun j hj => congrArg Dual.re (hxy j hj)) hi
    simp only [dualSetting, hvector, hxy i hi]

/-! ## The number of a dual number -/

section Numbers

variable {param direction : Owner → Nat → α} {input : Nat → Nat → α}

theorem re_preOf (v : Nat → Nat → Dual α) (n i : Nat) :
    (g.preOf (g.dualSetting param direction input) v n i).re =
      g.preOf (g.setting param input) (fun p r => (v p r).re) n i := by
  have hproduct : ∀ e, (g.product (g.dualSetting param direction input) v e i).re =
      g.product (g.setting param input) (fun p r => (v p r).re) e i := by
    intro e
    rw [product, product, Dual.re_sum]
    rfl
  simp only [preOf]
  split
  · rfl
  · split
    · simp only [Dual.re_add, Dual.re_total, List.map_map, Function.comp_def, hproduct]
      rfl
    · simp only [Dual.re_total, List.map_map, Function.comp_def, hproduct]

/-- Along a direction a graph computes the values that it computes without one. -/
theorem re_value (hg : g.Acyclic) (n i : Nat) :
    (value (g.dualSetting param direction input) hg n i).re =
      value (g.setting param input) hg n i := by
  induction n using hg.wellFounded.induction generalizing i with
  | _ n ih =>
    have hpre : ∀ j, (pre (g.dualSetting param direction input) hg n j).re =
        pre (g.setting param input) hg n j := by
      intro j
      rw [pre, re_preOf]
      exact preOf_congr (fun p hp r _ => ih p hp r) j
    rw [value_eq, value_eq]
    show (g.activation n).vector (g.width n)
      (fun j => (pre (g.dualSetting param direction input) hg n j).re) i = _
    rw [funext hpre]
    rfl

variable (direction) in
theorem re_pre (hg : g.Acyclic) (n i : Nat) :
    (pre (g.dualSetting param direction input) hg n i).re =
      pre (g.setting param input) hg n i := by
  rw [pre, re_preOf]
  exact preOf_congr (fun p _ r _ => re_value hg p r) i

theorem eps_value (hg : g.Acyclic) (n i : Nat) :
    (value (g.dualSetting param direction input) hg n i).eps =
      (g.derivative? n).elim 0 fun derivative =>
        (pre (g.dualSetting param direction input) hg n i).eps *
          derivative (pre (g.setting param input) hg n i) := by
  rw [value_eq, ← re_pre direction]
  rfl

end Numbers

/-! ## Pairings along the edges -/

section Pairings

variable [Scalar.Exact α]

attribute [local instance] Scalar.Exact.commRing

/-- A sum over the numbers of a range that a property holds of. -/
theorem sum_filter_range (n : Nat) (p : Nat → Bool) (f : Nat → α) :
    (((List.range n).filter p).map f).sum =
      ∑ i ∈ Finset.range n, if p i = true then f i else 0 := by
  induction n with
  | zero => rfl
  | succ n ih =>
    rw [List.range_succ, List.filter_append, List.map_append, List.sum_append, ih,
      Finset.sum_range_succ, List.filter_singleton]
    cases p n <;> simp

/-- Every edge counts once when the edges are grouped by one of their ends. -/
theorem sum_grouped (key : Nat → Nat) (hkey : ∀ e < g.numEdges, key e < g.numNodes)
    (f : Nat → α) :
    ∑ n ∈ Finset.range g.numNodes, ((g.edgeIds.filter fun e => decide (key e = n)).map f).sum =
      ∑ e ∈ Finset.range g.numEdges, f e := by
  have hgroup : ∀ n, ((g.edgeIds.filter fun e => decide (key e = n)).map f).sum =
      ∑ e ∈ Finset.range g.numEdges with key e = n, f e := by
    intro n
    rw [edgeIds, sum_filter_range, Finset.sum_filter]
    simp only [decide_eq_true_eq]
  rw [Finset.sum_congr rfl fun n _ => hgroup n]
  refine Finset.sum_fiberwise_of_maps_to (fun e he => ?_) f
  rw [Finset.mem_range] at he ⊢
  exact hkey e he

variable (g) in
/-- The sum over all parameters of a graph. -/
def ownerSum (f : Owner → α) : α :=
  ∑ e ∈ Finset.range g.numEdges, f (.weight e) +
    ∑ n ∈ Finset.range g.numNodes, if (g.bias? n).isSome then f (.bias n) else 0

/-- A sum over all parameters of which only one counts. -/
theorem ownerSum_eq_single {f : Owner → α} {o : Owner} (ho : (g.tensor? o).isSome = true)
    (hf : ∀ o', (g.tensor? o').isSome = true → o' ≠ o → f o' = 0) : g.ownerSum f = f o := by
  cases o with
  | weight e =>
    have he := isSome_tensor?_weight.1 ho
    have hweights : ∑ e' ∈ Finset.range g.numEdges, f (.weight e') = f (.weight e) := by
      refine Finset.sum_eq_single e (fun e' he' hne => ?_) fun hmem => ?_
      · rw [Finset.mem_range] at he'
        exact hf _ (isSome_tensor?_weight.2 he') fun heq => hne (Owner.weight.inj heq)
      · exact absurd (Finset.mem_range.2 he) hmem
    have hbiases : ∑ n ∈ Finset.range g.numNodes,
        (if (g.bias? n).isSome then f (.bias n) else 0) = 0 := by
      refine Finset.sum_eq_zero fun n _ => ?_
      split
      · rename_i hbias
        exact hf (.bias n) hbias fun heq => Owner.noConfusion heq
      · rfl
    rw [ownerSum, hweights, hbiases, add_zero]
  | bias n =>
    have hn := lt_of_isSome_bias? ho
    have hweights : ∑ e ∈ Finset.range g.numEdges, f (.weight e) = 0 := by
      refine Finset.sum_eq_zero fun e he => ?_
      rw [Finset.mem_range] at he
      exact hf _ (isSome_tensor?_weight.2 he) fun heq => Owner.noConfusion heq
    have hbiases : ∑ m ∈ Finset.range g.numNodes,
        (if (g.bias? m).isSome then f (.bias m) else 0) = f (.bias n) := by
      rw [Finset.sum_eq_single n, if_pos (show (g.bias? n).isSome = true from ho)]
      · intro m _ hne
        split
        · rename_i hbias
          exact hf (.bias m) hbias fun heq => hne (Owner.bias.inj heq)
        · rfl
      · exact fun hmem => absurd (Finset.mem_range.2 hn) hmem
    rw [ownerSum, hweights, hbiases, zero_add]

variable {param direction : Owner → Nat → α} {input : Nat → Nat → α} {loss : Loss}
  {target : Nat → Nat → α} (hg : g.Acyclic)

/-- What flows back along an edge: the derivatives of the values at its source, paired with the
errors at its destination through the weight. -/
def flow (g : Graph α) (param : Owner → Nat → α) (dv δ : Nat → Nat → α) (e : Nat) : α :=
  ∑ r ∈ Finset.range (g.width (g.src e)), ∑ c ∈ Finset.range (g.width (g.dst e)),
    dv (g.src e) r * (δ (g.dst e) c * param (.weight e) (r * g.width (g.dst e) + c))

/-- What a parameter adds to the derivative of the loss along a direction. -/
def weighed (g : Graph α) (direction : Owner → Nat → α) (v δ : Nat → Nat → α) (o : Owner) : α :=
  ∑ i ∈ Finset.range (g.extent o), direction o i * g.contribution v δ o i

theorem weighed_weight (v δ : Nat → Nat → α) (e : Nat) :
    g.weighed direction v δ (.weight e) =
      ∑ r ∈ Finset.range (g.width (g.src e)), ∑ c ∈ Finset.range (g.width (g.dst e)),
        direction (.weight e) (r * g.width (g.dst e) + c) *
          (v (g.src e) r * δ (g.dst e) c) := by
  rw [weighed, extent, Scalar.sum_entries]
  refine Finset.sum_congr rfl fun r _ => Finset.sum_congr rfl fun c hc => ?_
  rw [contribution_entry v δ (Finset.mem_range.1 hc)]

theorem sum_mul_total (n : Nat) (x : Nat → α) (es : List Nat) (f : Nat → Nat → α) :
    ∑ i ∈ Finset.range n, x i * (es.map fun e => f e i).sum =
      (es.map fun e => ∑ i ∈ Finset.range n, x i * f e i).sum := by
  induction es with
  | nil => simp
  | cons e es ih => simp only [List.map_cons, List.sum_cons, mul_add, Finset.sum_add_distrib, ih]

/-- The derivatives of the values of a node, paired with the derivatives of the loss in these
values, split into the loss of the node itself and the flow along the edges that leave it. -/
theorem pair_efferents (dv δ : Nat → Nat → α) (n : Nat) :
    ∑ i ∈ Finset.range (g.width n), dv n i *
        Scalar.total (errorTerms (g.setting param input) loss target hg δ n i) =
      (if g.isOutput n then ∑ i ∈ Finset.range (g.width n), dv n i *
          loss.slope (g.width n) (value (g.setting param input) hg n) (target n) i else 0) +
        ((g.efferents n).map (g.flow param dv δ)).sum := by
  have hflow : ∀ e ∈ g.efferents n, ∑ i ∈ Finset.range (g.width n),
      dv n i * g.productBack (g.setting param input) δ e i = g.flow param dv δ e := by
    intro e he
    obtain rfl := (g.mem_efferents.1 he).2
    refine Finset.sum_congr rfl fun r _ => ?_
    rw [productBack, Scalar.sum_eq, Finset.mul_sum]
    rfl
  rw [← List.map_congr_left hflow, ← sum_mul_total]
  cases hisout : g.isOutput n with
  | false => simp [errorTerms, hisout, Scalar.total_eq]
  | true =>
    simp only [errorTerms, hisout, Scalar.total_eq, if_true, List.sum_append, List.sum_singleton,
      mul_add, Finset.sum_add_distrib]
    exact add_comm _ _

/-- The derivatives of a product along an edge, paired with the errors at its destination: what
its weight adds, and the flow along it. -/
theorem pair_product {e n : Nat} (he : e ∈ g.afferents n) (δ : Nat → Nat → α) :
    ∑ i ∈ Finset.range (g.width n), δ n i * (g.product (g.dualSetting param direction input)
        (value (g.dualSetting param direction input) hg) e i).eps =
      g.weighed direction (value (g.setting param input) hg) δ (.weight e) +
        g.flow param
          (fun p r => (value (g.dualSetting param direction input) hg p r).eps) δ e := by
  obtain rfl := (g.mem_afferents.1 he).2
  rw [weighed_weight, flow, ← Finset.sum_add_distrib, Finset.sum_congr rfl fun r _ =>
    (Finset.sum_add_distrib (s := Finset.range (g.width (g.dst e)))).symm, Finset.sum_comm]
  refine Finset.sum_congr rfl fun c _ => ?_
  rw [product, Dual.eps_sum, Scalar.sum_eq, Finset.mul_sum]
  refine Finset.sum_congr rfl fun r _ => ?_
  rw [Dual.eps_mul, re_value]
  simp only [dualSetting]
  ring

/-- The same pairing, by way of the pre-activation: the parameters that act on the node, and the
flow along the edges that enter it. -/
theorem pair_afferents (hgt : g.Trainable) {n : Nat} (hn : n < g.numNodes) :
    let dv := fun p r => (value (g.dualSetting param direction input) hg p r).eps
    let v := value (g.setting param input) hg
    let δ := delta (g.setting param input) loss target hg
    ∑ i ∈ Finset.range (g.width n), dv n i *
        Scalar.total (errorTerms (g.setting param input) loss target hg δ n i) =
      ((g.afferents n).map fun e => g.weighed direction v δ (.weight e) + g.flow param dv δ e).sum +
        if (g.bias? n).isSome then g.weighed direction v δ (.bias n) else 0 := by
  intro dv v δ
  cases hsource : g.isSource n with
  | true =>
    have hnone : g.derivative? n = none := by rw [derivative?, hsource, if_pos rfl]
    have hzero : ∀ i, dv n i = 0 := fun i => by
      show (value (g.dualSetting param direction input) hg n i).eps = 0
      rw [eps_value, hnone]
      rfl
    have hbias := hgt.bias_eq_false hsource
    rw [isSource, List.isEmpty_iff] at hsource
    simp [hzero, hsource, hbias]
  | false =>
    obtain ⟨derivative, hd⟩ := Option.isSome_iff_exists.1 (hgt.derivative n hn hsource)
    have hpair : ∀ i, dv n i *
        Scalar.total (errorTerms (g.setting param input) loss target hg δ n i) =
        δ n i * (pre (g.dualSetting param direction input) hg n i).eps := by
      intro i
      show (value (g.dualSetting param direction input) hg n i).eps * _ =
        delta (g.setting param input) loss target hg n i * _
      rw [eps_value, hd, delta_eq_mul hg hd]
      simp only [Option.elim_some]
      ring
    rw [Finset.sum_congr rfl fun i _ => hpair i,
      ← List.map_congr_left fun e he => pair_product hg he δ, ← sum_mul_total]
    cases hbias : (g.bias? n).isSome with
    | false =>
      simp [pre, preOf, hsource, hbias, Scalar.total_eq, Function.comp_def]
    | true =>
      simp only [pre, preOf, hsource, hbias, Bool.false_eq_true, if_false, if_true, Dual.eps_add,
        Dual.eps_total, Scalar.total_eq, List.map_map, Function.comp_def, mul_add,
        Finset.sum_add_distrib]
      refine congrArg _ (Finset.sum_congr rfl fun i _ => ?_)
      exact mul_comm _ _

/-- **Reverse mode computes the derivative.** The derivative of the loss of a sample along a
direction is the sum of the contributions of all parameters, weighed with the direction. -/
theorem eps_sampleLoss (hgt : g.Trainable) :
    (sampleLoss (g.dualSetting param direction input) loss target hg).eps =
      g.ownerSum (g.weighed direction (value (g.setting param input) hg)
        (delta (g.setting param input) loss target hg)) := by
  let dv := fun p r => (value (g.dualSetting param direction input) hg p r).eps
  let v := value (g.setting param input) hg
  let δ := delta (g.setting param input) loss target hg
  let own := fun n => if g.isOutput n then ∑ i ∈ Finset.range (g.width n), dv n i *
    loss.slope (g.width n) (v n) (target n) i else 0
  have hown : (sampleLoss (g.dualSetting param direction input) loss target hg).eps =
      ∑ n ∈ Finset.range g.numNodes, own n := by
    rw [sampleLoss, Dual.eps_total, Scalar.total_eq, List.map_map, outputs, nodeIds,
      sum_filter_range]
    refine Finset.sum_congr rfl fun n _ => ?_
    simp only [own, Function.comp_def, Loss.dual, Scalar.sum_eq, re_value]
    rfl
  have hbalance : ∑ n ∈ Finset.range g.numNodes, own n +
      ∑ e ∈ Finset.range g.numEdges, g.flow param dv δ e =
      g.ownerSum (g.weighed direction v δ) +
        ∑ e ∈ Finset.range g.numEdges, g.flow param dv δ e := by
    calc ∑ n ∈ Finset.range g.numNodes, own n + ∑ e ∈ Finset.range g.numEdges, g.flow param dv δ e
        = ∑ n ∈ Finset.range g.numNodes,
            (own n + ((g.efferents n).map (g.flow param dv δ)).sum) := by
          rw [Finset.sum_add_distrib]
          exact congrArg _ (sum_grouped g.src (fun e he => g.src_lt he) _).symm
      _ = ∑ n ∈ Finset.range g.numNodes,
            (((g.afferents n).map fun e =>
              g.weighed direction v δ (.weight e) + g.flow param dv δ e).sum +
              if (g.bias? n).isSome then g.weighed direction v δ (.bias n) else 0) := by
          refine Finset.sum_congr rfl fun n hn => ?_
          rw [Finset.mem_range] at hn
          exact (pair_efferents hg dv δ n).symm.trans (pair_afferents hg hgt hn)
      _ = g.ownerSum (g.weighed direction v δ) +
            ∑ e ∈ Finset.range g.numEdges, g.flow param dv δ e := by
          have hentering : ∑ n ∈ Finset.range g.numNodes, ((g.afferents n).map fun e =>
              g.weighed direction v δ (.weight e) + g.flow param dv δ e).sum =
              ∑ e ∈ Finset.range g.numEdges, g.weighed direction v δ (.weight e) +
                ∑ e ∈ Finset.range g.numEdges, g.flow param dv δ e :=
            (sum_grouped g.dst (fun e he => g.dst_lt he) _).trans Finset.sum_add_distrib
          rw [Finset.sum_add_distrib, hentering, ownerSum, add_right_comm]
  rw [hown]
  exact add_right_cancel hbalance

/-- The losses of all output nodes, in whichever order they are added. -/
theorem foldl_addLoss {order : List Nat} (hnodup : order.Nodup)
    (hmem : ∀ n, n ∈ order ↔ n < g.numNodes) (v : Nat → Nat → α) (x : α) :
    order.foldl (g.addLoss loss v target) x =
      x + ∑ n ∈ Finset.range g.numNodes,
        if g.isOutput n = true then loss.value (g.width n) (v n) (target n) else 0 := by
  let term := fun n => if g.isOutput n = true then loss.value (g.width n) (v n) (target n) else 0
  have hterm : ∀ total n, g.addLoss loss v target total n = total + term n := by
    intro total n
    simp only [addLoss, term]
    split
    · rfl
    · exact (add_zero total).symm
  have hfold : ∀ (order : List Nat) (x : α),
      order.foldl (g.addLoss loss v target) x = x + (order.map term).sum := by
    intro order
    induction order with
    | nil => exact fun x => (add_zero x).symm
    | cons n order ih =>
      intro x
      rw [List.foldl_cons, ih, hterm, List.map_cons, List.sum_cons, add_assoc]
  have hset : order.toFinset = Finset.range g.numNodes := by
    ext n
    rw [List.mem_toFinset, hmem, Finset.mem_range]
  rw [hfold, ← List.sum_toFinset _ hnodup, hset]

/-- Along a direction the loss of a sample is the one that it is without. -/
theorem re_sampleLoss :
    (sampleLoss (g.dualSetting param direction input) loss target hg).re =
      ∑ n ∈ Finset.range g.numNodes, if g.isOutput n = true then
        loss.value (g.width n) (value (g.setting param input) hg n) (target n) else 0 := by
  rw [sampleLoss, Dual.re_total, Scalar.total_eq, List.map_map, outputs, nodeIds,
    sum_filter_range]
  refine Finset.sum_congr rfl fun n _ => ?_
  simp only [Function.comp_def, Loss.dual, re_value]

end Pairings

end Graph

end GraphTape
