import Mathlib.Algebra.BigOperators.Group.List.Basic
import Mathlib.Logic.Equiv.Defs
import GraphTape.Proofs.Graph.Layers
import GraphTape.Proofs.Graph.Meaning
import GraphTape.Proofs.Scalar.Exact

/-!
# Graphs under other numbers

The ids of nodes and edges are positions in two arrays. Putting the entries in another order gives
a graph with other ids that has the same paths, so the same nodes come in the same set of a
schedule; and in exact arithmetic the values and the errors of all nodes are the same. In what order
the edges into and out of a node come makes no difference to sums.

* `Renumbering`: new ids for nodes and edges, and so for parameters.
* `Graph.renumber`: the graph under the new ids, with `Graph.Renumbered` as what is used of it.
* `Graph.Renumbered.getElem?_setOf`: the set of a node.
* `Graph.Renumbered.value_eq`, `Graph.Renumbered.delta_eq`, `Graph.Renumbered.contribution_eq`: the
  meaning of the graph.
-/

namespace GraphTape

/-- New ids for nodes and edges. -/
structure Renumbering where
  node : Equiv.Perm Nat
  edge : Equiv.Perm Nat

namespace Renumbering

/-- The way back to the old ids. -/
def symm (ρ : Renumbering) : Renumbering := ⟨ρ.node.symm, ρ.edge.symm⟩

/-- The same parameter under the new ids. -/
def owner (ρ : Renumbering) : Owner → Owner
  | .weight e => .weight (ρ.edge e)
  | .bias n => .bias (ρ.node n)

/-- The same edge between the new ids. -/
def join (ρ : Renumbering) (e : Edge) : Edge := { e with src := ρ.node e.src, dst := ρ.node e.dst }

variable (ρ : Renumbering)

@[simp] theorem owner_symm_owner (o : Owner) : ρ.owner (ρ.symm.owner o) = o := by
  cases o <;> simp [owner, symm]

@[simp] theorem symm_join_join (e : Edge) : ρ.symm.join (ρ.join e) = e := by
  simp [join, symm]

end Renumbering

/-- A search in a range whose numbers are permuted finds the permuted results. -/
theorem perm_filter_range (π : Equiv.Perm Nat) {m m' : Nat} {p p' : Nat → Bool}
    (h : ∀ k, (π k < m' ∧ p' (π k) = true) ↔ (k < m ∧ p k = true)) :
    ((List.range m').filter p').Perm (((List.range m).filter p).map π) := by
  refine (List.perm_ext_iff_of_nodup (List.nodup_range.filter _)
    ((List.nodup_range.filter _).map π.injective)).2 fun k' => ?_
  obtain ⟨k, rfl⟩ := π.surjective k'
  rw [List.mem_map_of_injective π.injective]
  simpa using h k

variable {α : Type} {ρ : Renumbering}

/-- The new ids are the old ones in another order. -/
structure Renumbering.Permutes (ρ : Renumbering) (g : Graph α) : Prop where
  node : ∀ n, ρ.node n < g.numNodes ↔ n < g.numNodes
  edge : ∀ e, ρ.edge e < g.numEdges ↔ e < g.numEdges

namespace Renumbering.Permutes

variable {g : Graph α}

theorem symm_node_lt (hρ : ρ.Permutes g) {n : Nat} (hn : n < g.numNodes) :
    ρ.node.symm n < g.numNodes := by
  rwa [← hρ.node, Equiv.apply_symm_apply]

theorem symm_edge_lt (hρ : ρ.Permutes g) {e : Nat} (he : e < g.numEdges) :
    ρ.edge.symm e < g.numEdges := by
  rwa [← hρ.edge, Equiv.apply_symm_apply]

end Renumbering.Permutes

namespace Graph

/-- The graph under new ids. -/
def renumber (g : Graph α) (ρ : Renumbering) (hρ : ρ.Permutes g) : Graph α where
  nodes := .ofFn fun n : Fin g.numNodes =>
    getElem g.nodes (ρ.node.symm n) (hρ.symm_node_lt n.isLt)
  edges := .ofFn fun e : Fin g.numEdges =>
    ρ.join (getElem g.edges (ρ.edge.symm e) (hρ.symm_edge_lt e.isLt))
  nodes_pos := by
    rw [Array.size_ofFn]
    exact g.nodes_pos
  width_pos n hn := by
    obtain ⟨m, rfl⟩ := Array.mem_ofFn.1 hn
    exact g.width_pos _ (Array.getElem_mem _)
  ends_lt e he := by
    obtain ⟨f, rfl⟩ := Array.mem_ofFn.1 he
    obtain ⟨hsrc, hdst⟩ := g.ends_lt _ (Array.getElem_mem (hρ.symm_edge_lt f.isLt))
    rw [Array.size_ofFn]
    exact ⟨(hρ.node _).2 hsrc, (hρ.node _).2 hdst⟩
  ends_inj i j e f hi hj hends := by
    obtain ⟨hi', rfl⟩ := Array.getElem?_eq_some_iff.1 hi
    obtain ⟨hj', rfl⟩ := Array.getElem?_eq_some_iff.1 hj
    have hilt : i < g.numEdges := by rwa [Array.size_ofFn] at hi'
    have hjlt : j < g.numEdges := by rwa [Array.size_ofFn] at hj'
    simp only [Array.getElem_ofFn, Edge.ends, Renumbering.join, Prod.mk.injEq,
      ρ.node.apply_eq_iff_eq] at hends
    refine ρ.edge.symm.injective (g.ends_inj _ _ _ _
      (Array.getElem?_eq_getElem (hρ.symm_edge_lt hilt))
      (Array.getElem?_eq_getElem (hρ.symm_edge_lt hjlt)) ?_)
    exact Prod.ext hends.1 hends.2

/-- A graph is another one under new ids. -/
structure Renumbered (ρ : Renumbering) (g g' : Graph α) : Prop where
  node : ∀ n, g'.nodes[ρ.node n]? = g.nodes[n]?
  edge : ∀ e, g'.edges[ρ.edge e]? = (g.edges[e]?).map ρ.join

variable {g g' : Graph α}

theorem renumbered_renumber (hρ : ρ.Permutes g) : Renumbered ρ g (g.renumber ρ hρ) where
  node n := by
    rw [renumber, Array.getElem?_ofFn]
    by_cases hn : n < g.numNodes
    · rw [dif_pos ((hρ.node n).2 hn), Array.getElem?_eq_getElem hn]
      simp only [Equiv.symm_apply_apply]
      rfl
    · rw [dif_neg (mt (hρ.node n).1 hn), Array.getElem?_eq_none (Nat.le_of_not_lt hn)]
  edge e := by
    rw [renumber, Array.getElem?_ofFn]
    by_cases he : e < g.numEdges
    · rw [dif_pos ((hρ.edge e).2 he), Array.getElem?_eq_getElem he]
      simp only [Equiv.symm_apply_apply]
      rfl
    · rw [dif_neg (mt (hρ.edge e).1 he), Array.getElem?_eq_none (Nat.le_of_not_lt he)]
      rfl

namespace Renumbered

section Incidence

variable (h : Renumbered ρ g g')
include h

theorem symm : Renumbered ρ.symm g' g where
  node n := by
    obtain ⟨n, rfl⟩ := ρ.node.surjective n
    simp [Renumbering.symm, h.node]
  edge e := by
    obtain ⟨e, rfl⟩ := ρ.edge.surjective e
    have hid : ρ.symm.join ∘ ρ.join = id := funext ρ.symm_join_join
    rw [h.edge, Option.map_map, hid, Option.map_id]
    simp [Renumbering.symm]

theorem width_eq (n : Nat) : g'.width (ρ.node n) = g.width n := by simp only [width, h.node]

theorem isOutput_eq (n : Nat) : g'.isOutput (ρ.node n) = g.isOutput n := by
  simp only [isOutput, h.node]

theorem activation_eq [Scalar α] (n : Nat) : g'.activation (ρ.node n) = g.activation n := by
  simp only [activation, h.node]

theorem tensor?_eq (o : Owner) : g'.tensor? (ρ.owner o) = g.tensor? o := by
  cases o with
  | weight e =>
    rw [Renumbering.owner, tensor?, tensor?, h.edge, Option.map_map]
    rfl
  | bias n => simp only [Renumbering.owner, tensor?, bias?, h.node]

theorem bias?_eq (n : Nat) : g'.bias? (ρ.node n) = g.bias? n := h.tensor?_eq (.bias n)

theorem lt_numNodes_iff {n : Nat} : ρ.node n < g'.numNodes ↔ n < g.numNodes := by
  have hsome := Bool.eq_iff_iff.1 (congrArg Option.isSome (h.node n))
  simpa [numNodes] using hsome

theorem lt_numEdges_iff {e : Nat} : ρ.edge e < g'.numEdges ↔ e < g.numEdges := by
  rw [← isSome_tensor?_weight, ← isSome_tensor?_weight]
  exact Bool.eq_iff_iff.1 (congrArg Option.isSome (h.tensor?_eq (.weight e)))

theorem src_eq {e : Nat} (he : e < g.numEdges) : g'.src (ρ.edge e) = ρ.node (g.src e) := by
  have hedge : g.edges[e]? = some g.edges[e] := Array.getElem?_eq_getElem he
  rw [src, src, h.edge, hedge]
  rfl

theorem dst_eq {e : Nat} (he : e < g.numEdges) : g'.dst (ρ.edge e) = ρ.node (g.dst e) := by
  have hedge : g.edges[e]? = some g.edges[e] := Array.getElem?_eq_getElem he
  rw [dst, dst, h.edge, hedge]
  rfl

theorem extent_eq {o : Owner} (ho : (g.tensor? o).isSome = true) :
    g'.extent (ρ.owner o) = g.extent o := by
  cases o with
  | weight e =>
    have he := isSome_tensor?_weight.1 ho
    simp only [Renumbering.owner, extent, h.src_eq he, h.dst_eq he, h.width_eq]
  | bias n => exact h.width_eq n

/-- An element of a parameter is one under the new ids. -/
theorem entry {o : Owner} {i : Nat} (ho : (g.tensor? o).isSome = true) (hi : i < g.extent o) :
    (g'.tensor? (ρ.owner o)).isSome = true ∧ i < g'.extent (ρ.owner o) := by
  rw [h.tensor?_eq, h.extent_eq ho]
  exact ⟨ho, hi⟩

theorem perm_afferents (n : Nat) :
    (g'.afferents (ρ.node n)).Perm ((g.afferents n).map ρ.edge) := by
  refine perm_filter_range ρ.edge fun e => ?_
  rw [h.lt_numEdges_iff, decide_eq_true_iff, decide_eq_true_iff]
  exact and_congr_right fun he => by rw [h.dst_eq he, ρ.node.apply_eq_iff_eq]

theorem perm_efferents (n : Nat) :
    (g'.efferents (ρ.node n)).Perm ((g.efferents n).map ρ.edge) := by
  refine perm_filter_range ρ.edge fun e => ?_
  rw [h.lt_numEdges_iff, decide_eq_true_iff, decide_eq_true_iff]
  exact and_congr_right fun he => by rw [h.src_eq he, ρ.node.apply_eq_iff_eq]

theorem perm_outputs : g'.outputs.Perm (g.outputs.map ρ.node) :=
  perm_filter_range ρ.node fun n => by
    rw [h.lt_numNodes_iff, h.isOutput_eq]

theorem isSource_eq (n : Nat) : g'.isSource (ρ.node n) = g.isSource n := by
  rw [isSource, isSource, (h.perm_afferents n).isEmpty_eq, List.isEmpty_map]

theorem efferents_eq_nil_iff (n : Nat) : g'.efferents (ρ.node n) = [] ↔ g.efferents n = [] := by
  rw [← List.isEmpty_iff, (h.perm_efferents n).isEmpty_eq, List.isEmpty_map, List.isEmpty_iff]

theorem derivative?_eq [Scalar α] (n : Nat) : g'.derivative? (ρ.node n) = g.derivative? n := by
  rw [derivative?, derivative?, h.isSource_eq, h.activation_eq]

theorem feeds {p n : Nat} (hfeeds : g.Feeds p n) : g'.Feeds (ρ.node p) (ρ.node n) := by
  obtain ⟨e, he, rfl, rfl⟩ := hfeeds
  exact ⟨ρ.edge e, h.lt_numEdges_iff.2 he, h.src_eq he, h.dst_eq he⟩

theorem acyclic (hg : g.Acyclic) : g'.Acyclic := fun _ hn =>
  hg _ (hn.lift ρ.symm.node fun _ _ => h.symm.feeds)

theorem path {p n k : Nat} (hpath : g.Path p n k) : g'.Path (ρ.node p) (ρ.node n) k := by
  induction hpath with
  | nil => exact .nil
  | concat _ hfeeds ih => exact ih.concat (h.feeds hfeeds)

end Incidence

/-! ## Schedules -/

section Schedules

variable {s s' : Schedule}

theorem waveOf_le (h : Renumbered ρ g g') (hs : g.schedule = .ok s) (hs' : g'.schedule = .ok s')
    {n : Nat} (hn : n < g.numNodes) : s.waveOf n ≤ s'.waveOf (ρ.node n) := by
  obtain ⟨p, hpath⟩ := exists_path hs hn rfl
  exact (Nat.le_add_left _ _).trans (waveOf_add_le_of_path hs' (h.path hpath))

/-- A node stays in the same set, which is that of its longest path. -/
theorem getElem?_setOf (h : Renumbered ρ g g') (hs : g.schedule = .ok s)
    (hs' : g'.schedule = .ok s') {n : Nat} (hn : n < g.numNodes) :
    s'.setOf[ρ.node n]? = s.setOf[n]? := by
  have hn' := h.lt_numNodes_iff.2 hn
  have hback := h.symm.waveOf_le hs' hs hn'
  simp only [Renumbering.symm, Equiv.symm_apply_apply] at hback
  obtain ⟨wave, hwave, hmem⟩ := exists_wave hs hn
  obtain ⟨wave', hwave', hmem'⟩ := exists_wave hs' hn'
  rw [Graph.getElem?_setOf hs hwave hmem, Graph.getElem?_setOf hs' hwave' hmem',
    Nat.le_antisymm hback (h.waveOf_le hs hs' hn)]

end Schedules

end Renumbered

end Graph

/-! ## Meaning -/

/-- A setting for the new ids, read under the old ones. -/
def Setting.reindex {β : Type} (ρ : Renumbering) (σ : Setting β) : Setting β where
  param o := σ.param (ρ.owner o)
  input n := σ.input (ρ.node n)
  activate n := σ.activate (ρ.node n)

namespace Graph.Renumbered

variable [Scalar α] {g g' : Graph α} (h : Renumbered ρ g g')
include h

theorem setting_eq (param : Owner → Nat → α) (input : Nat → Nat → α) :
    (g'.setting param input).reindex ρ =
      g.setting (fun o => param (ρ.owner o)) fun n => input (ρ.node n) := by
  simp only [setting, Setting.reindex, h.activation_eq, h.width_eq]

theorem product_eq (σ : Setting α) (v : Nat → Nat → α) {e : Nat} (he : e < g.numEdges) (c : Nat) :
    g'.product σ v (ρ.edge e) c = g.product (σ.reindex ρ) (fun n => v (ρ.node n)) e c := by
  simp only [product, h.src_eq he, h.dst_eq he, h.width_eq]
  rfl

theorem productBack_eq (σ : Setting α) (δ : Nat → Nat → α) {e : Nat} (he : e < g.numEdges)
    (r : Nat) :
    g'.productBack σ δ (ρ.edge e) r = g.productBack (σ.reindex ρ) (fun n => δ (ρ.node n)) e r := by
  simp only [productBack, h.dst_eq he, h.width_eq]
  rfl

/-- What a parameter contributes to is what it does under the new ids. -/
theorem contribution_eq (v δ : Nat → Nat → α) {o : Owner} (ho : (g.tensor? o).isSome = true)
    (i : Nat) : g'.contribution v δ (ρ.owner o) i =
      g.contribution (fun n => v (ρ.node n)) (fun n => δ (ρ.node n)) o i := by
  cases o with
  | weight e =>
    have he := isSome_tensor?_weight.1 ho
    simp only [Renumbering.owner, contribution, h.src_eq he, h.dst_eq he, h.width_eq]
  | bias n => rfl

section Exact

variable [Scalar.Exact α]

attribute [local instance] Scalar.Exact.commRing

theorem preOf_eq (σ : Setting α) (v : Nat → Nat → α) (n i : Nat) :
    g'.preOf σ v (ρ.node n) i = g.preOf (σ.reindex ρ) (fun p => v (ρ.node p)) n i := by
  have hproducts : ((g'.afferents (ρ.node n)).map fun e => g'.product σ v e i).Perm
      ((g.afferents n).map fun e => g.product (σ.reindex ρ) (fun p => v (ρ.node p)) e i) := by
    refine ((h.perm_afferents n).map _).trans (.of_eq ?_)
    rw [List.map_map]
    exact List.map_congr_left fun e he => h.product_eq σ v (g.mem_afferents.1 he).1 i
  simp only [preOf, h.isSource_eq, h.bias?_eq, Scalar.total_eq, hproducts.sum_eq]
  rfl

/-- The values of the nodes are the same under the new ids. -/
theorem value_eq (σ : Setting α) (hg : g.Acyclic) (hg' : g'.Acyclic) (n : Nat) :
    value σ hg' (ρ.node n) = value (σ.reindex ρ) hg n := by
  induction n using hg.wellFounded.induction with
  | _ n ih =>
    rw [Graph.value_eq, Graph.value_eq]
    refine congrArg (σ.activate (ρ.node n)) (funext fun i => ?_)
    rw [pre, pre, h.preOf_eq]
    exact preOf_congr (fun p hp r _ => by rw [ih p hp]) i

theorem pre_eq (σ : Setting α) (hg : g.Acyclic) (hg' : g'.Acyclic) (n i : Nat) :
    pre σ hg' (ρ.node n) i = pre (σ.reindex ρ) hg n i := by
  rw [pre, pre, h.preOf_eq]
  exact preOf_congr (fun p _ r _ => by rw [h.value_eq σ hg hg']) i

/-- The errors of the nodes are the same under the new ids. -/
theorem delta_eq (σ : Setting α) (loss : Loss) (target : Nat → Nat → α) (hg : g.Acyclic)
    (hg' : g'.Acyclic) (n i : Nat) : delta σ loss target hg' (ρ.node n) i =
      delta (σ.reindex ρ) loss (fun n => target (ρ.node n)) hg n i := by
  induction n using hg.wellFounded_swap.induction generalizing i with
  | _ n ih =>
    have hproducts : ((g'.efferents (ρ.node n)).map fun e =>
          g'.productBack σ (delta σ loss target hg') e i).Perm
        ((g.efferents n).map fun e => g.productBack (σ.reindex ρ)
          (delta (σ.reindex ρ) loss (fun n => target (ρ.node n)) hg) e i) := by
      refine ((h.perm_efferents n).map _).trans (.of_eq ?_)
      rw [List.map_map]
      refine List.map_congr_left fun e he => ?_
      rw [Function.comp_apply, h.productBack_eq σ _ (g.mem_efferents.1 he).1]
      exact productBack_congr (fun c _ => ih _ (feeds_of_mem_efferents he) c) i
    have hterms : (errorTerms σ loss target hg' (delta σ loss target hg') (ρ.node n) i).Perm
        (errorTerms (σ.reindex ρ) loss (fun n => target (ρ.node n)) hg
          (delta (σ.reindex ρ) loss (fun n => target (ρ.node n)) hg) n i) := by
      simp only [errorTerms, h.isOutput_eq, h.width_eq, h.value_eq σ hg hg']
      exact hproducts.append_right _
    rw [Graph.delta_eq, Graph.delta_eq, deltaOf, deltaOf, Scalar.total_eq, Scalar.total_eq,
      hterms.sum_eq, h.derivative?_eq, h.pre_eq σ hg hg']

end Exact

end Graph.Renumbered

end GraphTape
