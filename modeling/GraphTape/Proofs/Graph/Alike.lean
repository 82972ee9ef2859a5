import GraphTape.Memory.Layout
import GraphTape.Proofs.Graph.Meaning
import GraphTape.Proofs.Graph.Waves

/-!
# Graphs that differ in storage alone

Two graphs are alike if they are equal up to the storage cells of their tensors. Scheduling,
shape checks and the meaning of a graph do not look at storage, so they do not tell such graphs
apart.
-/

namespace GraphTape

variable {α : Type}

/-- A node without the storage of its bias. -/
def Node.outline (n : Node α) : String × Nat × Activation α × Bool × Option Shape :=
  (n.name, n.width, n.activation, n.isOutput, n.bias.map Tensor.shape)

/-- An edge without the storage of its weight. -/
def Edge.outline (e : Edge) : Nat × Nat × Shape := (e.src, e.dst, e.weight.shape)

namespace Graph

/-- Two graphs are equal up to the storage cells of their tensors. -/
structure Alike (g g' : Graph α) : Prop where
  nodes : g.nodes.map Node.outline = g'.nodes.map Node.outline
  edges : g.edges.map Edge.outline = g'.edges.map Edge.outline

/-- What can be read off the outlines of two entries is the same if the outlines are. -/
theorem elim_eq_of_map_eq {ι β γ : Type} {outline : ι → γ} {x y : Option ι}
    (h : x.map outline = y.map outline) (d : β) {f : ι → β}
    (hf : ∀ a b, outline a = outline b → f a = f b) : x.elim d f = y.elim d f := by
  cases y with
  | none =>
    rw [Option.map_none, Option.map_eq_none_iff] at h
    rw [h]
  | some b =>
    rw [Option.map_some, Option.map_eq_some_iff] at h
    obtain ⟨a, rfl, hab⟩ := h
    exact hf a b hab

namespace Alike

theorem refl (g : Graph α) : g.Alike g := ⟨rfl, rfl⟩

variable {g g' : Graph α} (h : g.Alike g')
include h

theorem numNodes_eq : g.numNodes = g'.numNodes := by
  have hsize := congrArg Array.size h.nodes
  rwa [Array.size_map, Array.size_map] at hsize

theorem numEdges_eq : g.numEdges = g'.numEdges := by
  have hsize := congrArg Array.size h.edges
  rwa [Array.size_map, Array.size_map] at hsize

/-- What can be read off the outline of a node is the same in both graphs. -/
theorem elim_node {β : Type} (d : β) {f : Node α → β}
    (hf : ∀ a b : Node α, a.outline = b.outline → f a = f b) (n : Nat) :
    (g.nodes[n]?).elim d f = (g'.nodes[n]?).elim d f := by
  have hget := congrArg (fun nodes => nodes[n]?) h.nodes
  simp only [Array.getElem?_map] at hget
  exact elim_eq_of_map_eq hget d hf

/-- What can be read off the outline of an edge is the same in both graphs. -/
theorem elim_edge {β : Type} (d : β) {f : Edge → β}
    (hf : ∀ a b : Edge, a.outline = b.outline → f a = f b) (e : Nat) :
    (g.edges[e]?).elim d f = (g'.edges[e]?).elim d f := by
  have hget := congrArg (fun edges => edges[e]?) h.edges
  simp only [Array.getElem?_map] at hget
  exact elim_eq_of_map_eq hget d hf

theorem name_eq : g.name = g'.name :=
  funext (h.elim_node _ fun _ _ heq => congrArg Prod.fst heq)

theorem width_eq : g.width = g'.width :=
  funext (h.elim_node _ fun _ _ heq => congrArg (fun o => o.2.1) heq)

theorem activation_eq [Scalar α] : g.activation = g'.activation :=
  funext (h.elim_node _ fun _ _ heq => congrArg (fun o => o.2.2.1) heq)

theorem isOutput_eq : g.isOutput = g'.isOutput :=
  funext (h.elim_node _ fun _ _ heq => congrArg (fun o => o.2.2.2.1) heq)

theorem src_eq : g.src = g'.src :=
  funext (h.elim_edge _ fun _ _ heq => congrArg Prod.fst heq)

theorem dst_eq : g.dst = g'.dst :=
  funext (h.elim_edge _ fun _ _ heq => congrArg (fun o => o.2.1) heq)

/-- The tensors of an owner in the two graphs have the same shape. -/
theorem shape_eq (o : Owner) :
    (g.tensor? o).map Tensor.shape = (g'.tensor? o).map Tensor.shape := by
  cases o with
  | weight e =>
    have := h.elim_edge none (f := fun e => some e.weight.shape)
      (fun _ _ heq => congrArg (fun o => some o.2.2) heq) e
    simp only [tensor?]
    generalize g.edges[e]? = a at this ⊢
    generalize g'.edges[e]? = b at this ⊢
    cases a <;> cases b <;> simp_all
  | bias n =>
    have := h.elim_node none (f := fun n => n.bias.map Tensor.shape)
      (fun _ _ heq => congrArg (fun o => o.2.2.2.2) heq) n
    simp only [tensor?, bias?]
    generalize g.nodes[n]? = a at this ⊢
    generalize g'.nodes[n]? = b at this ⊢
    cases a <;> cases b <;> simp_all

theorem isSome_tensor?_eq (o : Owner) : (g.tensor? o).isSome = (g'.tensor? o).isSome := by
  have := congrArg Option.isSome (h.shape_eq o)
  rwa [Option.isSome_map, Option.isSome_map] at this

theorem isSome_bias?_eq (n : Nat) : (g.bias? n).isSome = (g'.bias? n).isSome :=
  h.isSome_tensor?_eq (.bias n)

theorem nodeIds_eq : g.nodeIds = g'.nodeIds := by rw [nodeIds, nodeIds, h.numNodes_eq]

theorem edgeIds_eq : g.edgeIds = g'.edgeIds := by rw [edgeIds, edgeIds, h.numEdges_eq]

theorem afferents_eq : g.afferents = g'.afferents := by
  funext n
  rw [afferents, afferents, h.edgeIds_eq, h.dst_eq]

theorem efferents_eq : g.efferents = g'.efferents := by
  funext n
  rw [efferents, efferents, h.edgeIds_eq, h.src_eq]

theorem predecessors_eq : g.predecessors = g'.predecessors := by
  funext n
  rw [predecessors, predecessors, h.afferents_eq, h.src_eq]

theorem successors_eq : g.successors = g'.successors := by
  funext n
  rw [successors, successors, h.efferents_eq, h.dst_eq]

theorem isSource_eq : g.isSource = g'.isSource := by
  funext n
  rw [isSource, isSource, h.afferents_eq]

theorem outputs_eq : g.outputs = g'.outputs := by
  rw [outputs, outputs, h.nodeIds_eq, h.isOutput_eq]

theorem extent_eq : g.extent = g'.extent := by
  funext o
  cases o <;> simp only [extent, h.width_eq, h.src_eq, h.dst_eq]

/-! ## Scheduling and checks -/

theorem walkBack_eq : g.walkBack = g'.walkBack := by
  funext remaining unvisited n
  induction unvisited, n using Graph.walkBack.induct g remaining with
  | case1 unvisited n hn p hp ih =>
    unfold walkBack
    rw [dif_pos hn, dif_pos hn, ← h.predecessors_eq, hp]
    exact ih
  | case2 unvisited n hn hnone =>
    unfold walkBack
    rw [dif_pos hn, dif_pos hn, ← h.predecessors_eq, hnone]
  | case3 unvisited n hn =>
    unfold walkBack
    rw [dif_neg hn, dif_neg hn]

theorem cycleMember_eq : g.cycleMember = g'.cycleMember := by
  funext remaining
  rw [cycleMember, cycleMember, h.walkBack_eq, h.nodeIds_eq]

theorem start_eq : Layering.start g = .start g' := by
  rw [Layering.start, Layering.start, h.nodeIds_eq, h.afferents_eq]

theorem remaining_eq : Layering.remaining g = Layering.remaining g' := by
  funext l
  rw [Layering.remaining, Layering.remaining, h.nodeIds_eq]

theorem due_eq : Layering.due g = Layering.due g' := by
  funext l
  rw [Layering.due, Layering.due, h.nodeIds_eq]

theorem add_eq : Layering.add g = Layering.add g' := by
  funext l wave
  rw [Layering.add, Layering.add, h.successors_eq]

theorem layer_eq (l : Layering) : g.layer l = g'.layer l := by
  induction l using Graph.layer.induct g with
  | case1 l hlt hdue =>
    have hlt' : l.assigned < g'.numNodes := h.numNodes_eq ▸ hlt
    unfold layer
    rw [dif_pos hlt, dif_pos hlt', dif_pos hdue, dif_pos (h.due_eq ▸ hdue), h.cycleMember_eq,
      h.remaining_eq]
  | case2 l hlt hdue ih =>
    have hlt' : l.assigned < g'.numNodes := h.numNodes_eq ▸ hlt
    unfold layer
    rw [dif_pos hlt, dif_pos hlt', dif_neg hdue, dif_neg (h.due_eq ▸ hdue), ih, h.add_eq,
      h.due_eq]
  | case3 l hge =>
    unfold layer
    rw [dif_neg hge, dif_neg (h.numNodes_eq ▸ hge)]

theorem schedule_eq : g.schedule = g'.schedule := by
  rw [schedule, schedule, h.layer_eq, h.start_eq, deadNode?, deadNode?, h.nodeIds_eq,
    h.isOutput_eq, h.efferents_eq, h.name_eq]

theorem weightFault?_eq : g.weightFault? = g'.weightFault? := by
  funext e
  have := h.elim_edge none (f := fun edge => if edge.weight.shape = g.weightShape e then none
    else some (Error.edgeShape (α := α) e (g.weightShape e) edge.weight.shape))
    (fun a b heq => by
      have hshape : a.weight.shape = b.weight.shape := congrArg (fun o => o.2.2) heq
      simp only [hshape]) e
  have hshape : g'.weightShape e = g.weightShape e := by
    rw [weightShape, weightShape, h.width_eq, h.src_eq, h.dst_eq]
  simp only [weightFault?, hshape]
  generalize g.edges[e]? = a at this ⊢
  generalize g'.edges[e]? = b at this ⊢
  cases a <;> cases b <;> exact this

theorem biasFault?_eq : g.biasFault? = g'.biasFault? := by
  funext n
  have := h.shape_eq (.bias n)
  simp only [tensor?] at this
  simp only [biasFault?, h.isSource_eq, h.width_eq]
  generalize g.bias? n = a at this ⊢
  generalize g'.bias? n = b at this ⊢
  cases a <;> cases b <;> simp_all

theorem shapeFault?_eq : g.shapeFault? = g'.shapeFault? := by
  rw [shapeFault?, shapeFault?, h.edgeIds_eq, h.nodeIds_eq, h.weightFault?_eq, h.biasFault?_eq]

theorem drain_eq (pending queue : List Nat) : g.drain pending queue = g'.drain pending queue := by
  induction pending, queue using Graph.drain.induct g with
  | case1 pending => rw [drain, drain]
  | case2 pending n rest state order left hdrain =>
    rename_i ih
    rw [drain, drain, ← h.predecessors_eq]
    exact congrArg (fun p => (n :: p.1, p.2)) ih

theorem settle_eq : g.settle = g'.settle := by
  rw [settle, settle, h.drain_eq, h.nodeIds_eq, h.efferents_eq]

section Training

variable [Scalar α]

theorem derivative?_eq : g.derivative? = g'.derivative? := by
  funext n
  rw [derivative?, derivative?, h.isSource_eq, h.activation_eq]

theorem derivativeFault?_eq : g.derivativeFault? = g'.derivativeFault? := by
  funext n
  rw [derivativeFault?, derivativeFault?, h.isSource_eq, h.activation_eq]

/-! ## Meaning -/

theorem setting_eq : g.setting = g'.setting := by
  funext param input
  rw [setting, setting, h.activation_eq, h.width_eq]

omit [Scalar α] in
theorem preOf_eq {β : Type} [Scalar β] (σ : Setting β) : g.preOf σ = g'.preOf σ := by
  funext v n i
  simp only [preOf, product, h.isSource_eq, h.afferents_eq, h.isSome_bias?_eq, h.width_eq,
    h.src_eq, h.dst_eq]

omit [Scalar α] in
theorem value_eq {β : Type} [Scalar β] (σ : Setting β) (hg : g.Acyclic) (hg' : g'.Acyclic) :
    value σ hg = value σ hg' := by
  funext n
  induction n using hg.wellFounded.induction with
  | _ n ih =>
    rw [Graph.value_eq, Graph.value_eq]
    congr 1
    funext i
    rw [pre, pre, ← h.preOf_eq]
    exact preOf_congr (fun p hp r _ => by rw [ih p hp]) i

omit [Scalar α] in
theorem pre_eq {β : Type} [Scalar β] (σ : Setting β) (hg : g.Acyclic) (hg' : g'.Acyclic) :
    pre σ hg = pre σ hg' := by
  rw [pre, pre, h.preOf_eq, h.value_eq σ hg hg']

theorem delta_eq (σ : Setting α) (loss : Loss) (target : Nat → Nat → α) (hg : g.Acyclic)
    (hg' : g'.Acyclic) : delta σ loss target hg = delta σ loss target hg' := by
  have hback : g.productBack σ = g'.productBack σ := by
    funext δ e r
    simp only [productBack, h.width_eq, h.dst_eq]
  funext n i
  induction n using hg.wellFounded_swap.induction generalizing i with
  | _ n ih =>
    have hterms : ∀ i, errorTerms σ loss target hg (delta σ loss target hg) n i =
        errorTerms σ loss target hg' (delta σ loss target hg') n i := by
      intro i
      rw [errorTerms_congr hg (fun q hq c _ => ih q hq c), errorTerms, errorTerms, hback,
        h.efferents_eq, h.isOutput_eq, h.width_eq, h.value_eq σ hg hg']
    rw [Graph.delta_eq, Graph.delta_eq, deltaOf, deltaOf, hterms, h.derivative?_eq,
      h.pre_eq σ hg hg']

theorem addLoss_eq : g.addLoss = g'.addLoss := by
  funext loss v target total n
  rw [addLoss, addLoss, h.isOutput_eq, h.width_eq]

theorem contribution_eq : g.contribution = g'.contribution := by
  funext v δ o i
  cases o <;> simp only [contribution, h.src_eq, h.dst_eq, h.width_eq]

end Training

end Alike

end Graph

end GraphTape
