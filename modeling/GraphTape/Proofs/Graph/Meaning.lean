import GraphTape.Proofs.Graph.Order
import GraphTape.Proofs.Network.Vector
import GraphTape.Tape.Reverse

/-!
# The meaning of a graph

What the nodes of an acyclic graph compute, by recursion along the edges and without any tape,
offset or bank. A `Setting` gives the parameters, the inputs and the activations, over any type
of numbers; a graph of numbers `α` can so be evaluated over an extension of `α` as well.

* `Graph.value`, `Graph.pre`: the value and the pre-activation of every node (`value_eq`).
* `Graph.delta`: the derivative of the loss in the pre-activation of every node, from those of
  its successors (`delta_eq`).

Every sum is taken in a fixed order, so no law of arithmetic is needed to compare these with what
a tape computes.
-/

namespace GraphTape

/-- The sum of a list: the others added one after the other to the first one. -/
def Scalar.total {α : Type} [Scalar α] : List α → α
  | [] => 0
  | x :: xs => xs.foldl (· + ·) x

theorem Scalar.total_concat {α : Type} [Scalar α] {xs : List α} (hxs : xs ≠ []) (x : α) :
    Scalar.total (xs ++ [x]) = Scalar.total xs + x := by
  cases xs with
  | nil => exact absurd rfl hxs
  | cons y ys => simp only [total, List.cons_append, List.foldl_append, List.foldl_cons,
      List.foldl_nil]

/-- What the values of the nodes of a graph are computed from. -/
structure Setting (β : Type) where
  /-- The elements of the parameter of an owner. -/
  param : Owner → Nat → β
  /-- The input vector of a source node. -/
  input : Nat → Nat → β
  /-- The activation of a node, on whole vectors. -/
  activate : Nat → (Nat → β) → Nat → β

namespace Graph

variable {α β : Type} (g : Graph α)

/-- The setting in which a graph applies the activations of its nodes. -/
def setting [Scalar α] (param : Owner → Nat → α) (input : Nat → Nat → α) : Setting α :=
  { param, input, activate := fun n => (g.activation n).vector (g.width n) }

/-! ## Parameters -/

section Parameters

/-- The node whose pre-activation a parameter acts on. -/
def sink : Owner → Nat
  | .weight e => g.dst e
  | .bias n => n

/-- The number of elements of a parameter. -/
def extent : Owner → Nat
  | .weight e => g.width (g.src e) * g.width (g.dst e)
  | .bias n => g.width n

/-- The parameters that act on a node: the weights by ascending edge id, and then its bias. -/
def entering (n : Nat) : List Owner :=
  (g.afferents n).map Owner.weight ++ (g.bias? n).toList.map fun _ => .bias n

variable {g}

theorem isSome_tensor?_weight {e : Nat} :
    (g.tensor? (.weight e)).isSome = true ↔ e < g.numEdges := by
  simp [tensor?, numEdges]

theorem lt_of_isSome_bias? {n : Nat} (h : (g.bias? n).isSome = true) : n < g.numNodes := by
  by_contra hn
  have hnone : g.nodes[n]? = none := Array.getElem?_eq_none (Nat.le_of_not_lt hn)
  simp [bias?, hnone] at h

theorem sink_lt {o : Owner} (h : (g.tensor? o).isSome = true) : g.sink o < g.numNodes := by
  cases o with
  | weight e => exact g.dst_lt (isSome_tensor?_weight.1 h)
  | bias n => exact lt_of_isSome_bias? h

/-- An entry of a weight lies within the weight. -/
theorem entry_lt_extent {e r c : Nat} (hr : r < g.width (g.src e)) (hc : c < g.width (g.dst e)) :
    r * g.width (g.dst e) + c < g.extent (.weight e) := by
  have hrow := Nat.mul_le_mul_right (g.width (g.dst e)) (Nat.succ_le_of_lt hr)
  rw [Nat.succ_mul] at hrow
  exact Nat.lt_of_lt_of_le (Nat.add_lt_add_left hc _) hrow

theorem mem_entering {o : Owner} {n : Nat} :
    o ∈ g.entering n ↔ (g.tensor? o).isSome = true ∧ g.sink o = n := by
  rw [entering, List.mem_append, List.mem_map, List.mem_map]
  cases o with
  | weight e => simp [isSome_tensor?_weight, mem_afferents, sink]
  | bias m =>
    simp only [reduceCtorEq, and_false, exists_false, false_or, sink, tensor?, Owner.bias.injEq]
    constructor
    · rintro ⟨t, ht, rfl⟩
      rw [Option.mem_toList] at ht
      exact ⟨by rw [ht, Option.isSome_some], rfl⟩
    · rintro ⟨hsome, rfl⟩
      obtain ⟨t, ht⟩ := Option.isSome_iff_exists.1 hsome
      exact ⟨t, by rw [Option.mem_toList, ht], rfl⟩

theorem nodup_entering (n : Nat) : (g.entering n).Nodup := by
  rw [entering, List.nodup_append]
  refine ⟨(nodup_afferents n).map fun _ _ => Owner.weight.inj, ?_, ?_⟩
  · cases g.bias? n <;> simp
  · intro o ho o' ho' heq
    obtain ⟨e, -, rfl⟩ := List.mem_map.1 ho
    obtain ⟨t, -, rfl⟩ := List.mem_map.1 ho'
    exact Owner.noConfusion heq

end Parameters

/-! ## Values -/

section Values

variable [Scalar β] (σ : Setting β)

/-- Entry `c` of the values `v` of the source of an edge times its weight. -/
def product (v : Nat → Nat → β) (e c : Nat) : β :=
  Scalar.sum (g.width (g.src e)) fun r =>
    v (g.src e) r * σ.param (.weight e) (r * g.width (g.dst e) + c)

/-- The pre-activation of a node, given the values `v` of the nodes that feed it: the input of a
source; the products over the edges into any other node, by ascending id, and then its bias. -/
def preOf (v : Nat → Nat → β) (n i : Nat) : β :=
  if g.isSource n then σ.input n i
  else
    let gathered := Scalar.total ((g.afferents n).map fun e => g.product σ v e i)
    if (g.bias? n).isSome then gathered + σ.param (.bias n) i else gathered

variable {g} in
/-- The values of all nodes, by recursion along the edges. -/
def value (hg : g.Acyclic) : Nat → Nat → β :=
  hg.wellFounded.fix fun n prior =>
    σ.activate n (g.preOf σ (fun p => if h : p ∈ g.predecessors n
      then prior p (mem_predecessors.1 h) else fun _ => 0) n)

variable {g} in
/-- The pre-activations of all nodes. -/
def pre (hg : g.Acyclic) : Nat → Nat → β := g.preOf σ (value σ hg)

variable {g σ}

theorem product_congr {v v' : Nat → Nat → β} {e : Nat}
    (h : ∀ r < g.width (g.src e), v (g.src e) r = v' (g.src e) r) (c : Nat) :
    g.product σ v e c = g.product σ v' e c :=
  Scalar.sum_congr fun r hr => by rw [h r hr]

/-- A pre-activation depends on the values of the nodes that feed the node, and on no other. -/
theorem preOf_congr {v v' : Nat → Nat → β} {n : Nat}
    (h : ∀ p, g.Feeds p n → ∀ r < g.width p, v p r = v' p r) (i : Nat) :
    g.preOf σ v n i = g.preOf σ v' n i := by
  have hproducts : (g.afferents n).map (fun e => g.product σ v e i) =
      (g.afferents n).map fun e => g.product σ v' e i :=
    List.map_congr_left fun e he => product_congr (h _ (feeds_of_mem_afferents he)) i
  simp only [preOf, hproducts]

/-- The value of a node is the activation of its pre-activation. -/
theorem value_eq (hg : g.Acyclic) (n : Nat) : value σ hg n = σ.activate n (pre σ hg n) := by
  rw [value, WellFounded.fix_eq]
  congr 1
  funext i
  refine preOf_congr (fun p hp r _ => ?_) i
  rw [dif_pos (mem_predecessors.2 hp)]
  rfl

/-- Two settings that a graph cannot tell apart: they agree on the elements that its parameters
and inputs have, and its activations on vectors of the width of their node. -/
structure Setting.Agree (g : Graph α) (σ σ' : Setting β) : Prop where
  param : ∀ o, (g.tensor? o).isSome = true → ∀ i < g.extent o, σ.param o i = σ'.param o i
  input : ∀ n < g.numNodes, g.isSource n = true → ∀ i < g.width n, σ.input n i = σ'.input n i
  activate : ∀ n < g.numNodes, ∀ x y : Nat → β, (∀ i < g.width n, x i = y i) →
    ∀ i < g.width n, σ.activate n x i = σ'.activate n y i

theorem preOf_congr_setting {σ' : Setting β} (h : Setting.Agree g σ σ') {v v' : Nat → Nat → β}
    {n : Nat} (hn : n < g.numNodes)
    (hv : ∀ p, g.Feeds p n → ∀ r < g.width p, v p r = v' p r) {i : Nat} (hi : i < g.width n) :
    g.preOf σ v n i = g.preOf σ' v' n i := by
  cases hsource : g.isSource n with
  | true =>
    simp only [preOf, hsource, if_true]
    exact h.input n hn hsource i hi
  | false =>
    have hproducts : (g.afferents n).map (fun e => g.product σ v e i) =
        (g.afferents n).map fun e => g.product σ' v' e i := by
      refine List.map_congr_left fun e he => Scalar.sum_congr fun r hr => ?_
      obtain ⟨hlt, hdst⟩ := g.mem_afferents.1 he
      rw [hv _ (feeds_of_mem_afferents he) r hr,
        h.param (.weight e) (isSome_tensor?_weight.2 hlt) _ (entry_lt_extent hr (hdst ▸ hi))]
    have hbias : (g.bias? n).isSome = true → σ.param (.bias n) i = σ'.param (.bias n) i :=
      fun hsome => h.param (.bias n) hsome i hi
    simp only [preOf, hsource, Bool.false_eq_true, if_false, hproducts]
    split
    · rename_i hsome
      rw [hbias hsome]
    · rfl

/-- A graph computes the same values in settings that it cannot tell apart. -/
theorem value_congr {σ' : Setting β} (h : Setting.Agree g σ σ') (hg : g.Acyclic) {n : Nat}
    (hn : n < g.numNodes) {i : Nat} (hi : i < g.width n) : value σ hg n i = value σ' hg n i := by
  induction n using hg.wellFounded.induction generalizing i with
  | _ n ih =>
    rw [value_eq, value_eq]
    refine h.activate n hn _ _ (fun j hj => ?_) i hi
    exact preOf_congr_setting h hn (fun p hp r hr => ih p hp hp.lt.1 hr) hj

theorem pre_congr {σ' : Setting β} (h : Setting.Agree g σ σ') (hg : g.Acyclic) {n : Nat}
    (hn : n < g.numNodes) {i : Nat} (hi : i < g.width n) : pre σ hg n i = pre σ' hg n i :=
  preOf_congr_setting h hn (fun _ hp _ hr => value_congr h hg hp.lt.1 hr) hi

/-- Settings of one graph agree if their parameters and inputs do. -/
theorem agree_setting [Scalar α] {param param' : Owner → Nat → α} {input input' : Nat → Nat → α}
    (hparam : ∀ o, (g.tensor? o).isSome = true → ∀ i < g.extent o, param o i = param' o i)
    (hinput : ∀ n < g.numNodes, g.isSource n = true → ∀ i < g.width n, input n i = input' n i) :
    Setting.Agree g (g.setting param input) (g.setting param' input') :=
  ⟨hparam, hinput, fun _ _ _ _ hxy _ hi => Activation.vector_congr _ hxy hi⟩

end Values

/-! ## Errors -/

section Errors

variable [Scalar α] (σ : Setting α) (loss : Loss) (target : Nat → Nat → α)

/-- Entry `r` of the errors `δ` of the destination of an edge times its transposed weight. -/
def productBack (δ : Nat → Nat → α) (e r : Nat) : α :=
  Scalar.sum (g.width (g.dst e)) fun c =>
    δ (g.dst e) c * σ.param (.weight e) (r * g.width (g.dst e) + c)

variable {g}

/-- The terms of the derivative of the loss in a value of a node, given the errors `δ` of its
successors: one for each edge that leaves it, by ascending id, and the loss of the node itself
at last. -/
def errorTerms (hg : g.Acyclic) (δ : Nat → Nat → α) (n i : Nat) : List α :=
  (g.efferents n).map (fun e => g.productBack σ δ e i) ++
    if g.isOutput n then [loss.slope (g.width n) (value σ hg n) (target n) i] else []

/-- The error of a node, given the errors `δ` of its successors. -/
def deltaOf (hg : g.Acyclic) (δ : Nat → Nat → α) (n i : Nat) : α :=
  let error := Scalar.total (errorTerms σ loss target hg δ n i)
  match g.derivative? n with
  | some derivative => error * derivative (pre σ hg n i)
  | none => error

/-- The errors of all nodes, by recursion against the edges. -/
def delta (hg : g.Acyclic) : Nat → Nat → α :=
  hg.wellFounded_swap.fix fun n later =>
    deltaOf σ loss target hg (fun q => if h : q ∈ g.successors n
      then later q (mem_successors.1 h) else fun _ => 0) n

variable {σ loss target}

theorem productBack_congr {δ δ' : Nat → Nat → α} {e : Nat}
    (h : ∀ c < g.width (g.dst e), δ (g.dst e) c = δ' (g.dst e) c) (r : Nat) :
    g.productBack σ δ e r = g.productBack σ δ' e r :=
  Scalar.sum_congr fun c hc => by rw [h c hc]

/-- An error depends on the errors of the successors, and on no other. -/
theorem errorTerms_congr (hg : g.Acyclic) {δ δ' : Nat → Nat → α} {n : Nat}
    (h : ∀ q, g.Feeds n q → ∀ c < g.width q, δ q c = δ' q c) (i : Nat) :
    errorTerms σ loss target hg δ n i = errorTerms σ loss target hg δ' n i := by
  have hproducts : (g.efferents n).map (fun e => g.productBack σ δ e i) =
      (g.efferents n).map fun e => g.productBack σ δ' e i :=
    List.map_congr_left fun e he => productBack_congr (h _ (feeds_of_mem_efferents he)) i
  rw [errorTerms, errorTerms, hproducts]

/-- The errors of all nodes satisfy the equations of back propagation. -/
theorem delta_eq (hg : g.Acyclic) (n i : Nat) :
    delta σ loss target hg n i = deltaOf σ loss target hg (delta σ loss target hg) n i := by
  have hcongr : ∀ δ : Nat → Nat → α, (∀ q, g.Feeds n q → δ q = delta σ loss target hg q) →
      deltaOf σ loss target hg δ n i = deltaOf σ loss target hg (delta σ loss target hg) n i := by
    intro δ hδ
    rw [deltaOf, deltaOf, errorTerms_congr hg fun q hq c _ => by rw [hδ q hq]]
  rw [delta, WellFounded.fix_eq]
  refine hcongr _ fun q hq => ?_
  rw [dif_pos (mem_successors.2 hq)]
  rfl

/-- The error of a node that errors are followed through. -/
theorem delta_eq_mul (hg : g.Acyclic) {n : Nat} {derivative : α → α}
    (h : g.derivative? n = some derivative) (i : Nat) :
    delta σ loss target hg n i =
      Scalar.total (errorTerms σ loss target hg (delta σ loss target hg) n i) *
        derivative (pre σ hg n i) := by
  rw [delta_eq, deltaOf, h]

variable (g) in
/-- The loss of a sample after one more node, which counts if it is an output. -/
def addLoss (loss : Loss) (v target : Nat → Nat → α) (total : α) (n : Nat) : α :=
  if g.isOutput n then total + loss.value (g.width n) (v n) (target n) else total

theorem addLoss_congr {v v' target target' : Nat → Nat → α} {n : Nat}
    (hv : ∀ i < g.width n, v n i = v' n i)
    (htarget : g.isOutput n = true → ∀ i < g.width n, target n i = target' n i) (total : α) :
    g.addLoss loss v target total n = g.addLoss loss v' target' total n := by
  rw [addLoss, addLoss]
  split
  · rename_i hisout
    rw [loss.value_congr hv (htarget hisout)]
  · rfl

/-- A graph has the same errors in settings that it cannot tell apart, for the same targets. -/
theorem delta_congr {σ' : Setting α} (h : Setting.Agree g σ σ') {target' : Nat → Nat → α}
    (htarget : ∀ n < g.numNodes, g.isOutput n = true → ∀ i < g.width n, target n i = target' n i)
    (hg : g.Acyclic) {n : Nat} (hn : n < g.numNodes) {i : Nat} (hi : i < g.width n) :
    delta σ loss target hg n i = delta σ' loss target' hg n i := by
  induction n using hg.wellFounded_swap.induction generalizing i with
  | _ n ih =>
    have hproducts : (g.efferents n).map (fun e => g.productBack σ (delta σ loss target hg) e i) =
        (g.efferents n).map fun e => g.productBack σ' (delta σ' loss target' hg) e i := by
      refine List.map_congr_left fun e he => Scalar.sum_congr fun c hc => ?_
      obtain ⟨hlt, hsrc⟩ := g.mem_efferents.1 he
      have hfeeds := feeds_of_mem_efferents he
      rw [ih _ hfeeds hfeeds.lt.2 hc,
        h.param (.weight e) (isSome_tensor?_weight.2 hlt) _ (entry_lt_extent (hsrc ▸ hi) hc)]
    have hslope : (if g.isOutput n then
          [loss.slope (g.width n) (value σ hg n) (target n) i] else []) =
        if g.isOutput n then [loss.slope (g.width n) (value σ' hg n) (target' n) i] else [] := by
      split
      · rename_i hisout
        rw [loss.slope_congr (value_congr h hg hn hi) (htarget n hn hisout i hi)]
      · rfl
    rw [delta_eq, delta_eq, deltaOf, deltaOf, errorTerms, errorTerms, hproducts, hslope,
      pre_congr h hg hn hi]

end Errors

/-! ## Gradients -/

section Gradients

/-- What element `i` of a parameter contributes to, given the values `v` and the errors `δ`. -/
def contribution [Scalar α] (v δ : Nat → Nat → α) : Owner → Nat → α
  | .weight e, i => v (g.src e) (i / g.width (g.dst e)) * δ (g.dst e) (i % g.width (g.dst e))
  | .bias n, i => δ n i

variable {g}

/-- Entry `(r, c)` of a weight joins the value in row `r` to the error in column `c`. -/
theorem contribution_entry [Scalar α] (v δ : Nat → Nat → α) {e c : Nat}
    (hc : c < g.width (g.dst e)) (r : Nat) :
    g.contribution v δ (.weight e) (r * g.width (g.dst e) + c) =
      v (g.src e) r * δ (g.dst e) c := by
  rw [contribution, Buffer.entry_div hc, Buffer.entry_mod hc]

/-- A contribution depends on the values that feed the sink of a parameter and on its errors. -/
theorem contribution_congr [Scalar α] {v v' δ δ' : Nat → Nat → α} {o : Owner} {i : Nat}
    (ho : (g.tensor? o).isSome = true) (hi : i < g.extent o)
    (hv : ∀ p, g.Feeds p (g.sink o) → ∀ r < g.width p, v p r = v' p r)
    (hδ : ∀ c < g.width (g.sink o), δ (g.sink o) c = δ' (g.sink o) c) :
    g.contribution v δ o i = g.contribution v' δ' o i := by
  cases o with
  | weight e =>
    have he := isSome_tensor?_weight.1 ho
    have hpos := g.width_pos_of_lt (g.dst_lt he)
    have hrow : i / g.width (g.dst e) < g.width (g.src e) := Nat.div_lt_of_lt_mul (by
      rw [Nat.mul_comm]
      exact hi)
    have herror : δ (g.dst e) (i % g.width (g.dst e)) = δ' (g.dst e) (i % g.width (g.dst e)) :=
      hδ _ (Nat.mod_lt _ hpos)
    rw [contribution, contribution, hv _ ⟨e, he, rfl, rfl⟩ _ hrow, herror]
  | bias n => exact hδ i hi

end Gradients

end Graph

end GraphTape
