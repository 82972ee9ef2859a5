import GraphTape.Memory.Layout
import GraphTape.Proofs.Graph.Meaning
import GraphTape.Proofs.Graph.Waves
import GraphTape.Proofs.Memory.Placing

/-!
# What a layout promises

The tape compilers read a layout by node and by edge. `Layout.Fits` collects what they find: the
slots of a node and of an edge, said in terms of the graph, and that no two stretches of a region
meet. Every layout that compilation returns fits its graph (`Layout.fits_of_compile`); nothing
about schedules or ownership needs to be known after that.
-/

namespace GraphTape

namespace Layout

variable {α : Type}

/-- The first element of a source node in the packed inputs. -/
def inputAt (l : Layout) (n : Nat) : Nat := ((l.nodes[n]?).bind NodeSlot.input).getD 0

/-- The first element of an output node in the packed targets. -/
def targetAt (l : Layout) (n : Nat) : Nat := ((l.nodes[n]?).bind NodeSlot.target).getD 0

/-- The slot of the parameter of an owner. -/
def slotOf (l : Layout) (o : Owner) : Slot := (l.params.lookup o).getD default

/-- The offsets of a node of the graph. -/
def nodeOf (l : Layout) (g : Graph α) (n : Nat) : NodeSlot :=
  { id := n
    width := g.width n
    data := l.dataAt n
    input := if g.isSource n then some (l.inputAt n) else none
    target := if g.isOutput n then some (l.targetAt n) else none
    bias := (g.bias? n).map fun _ => l.slotOf (.bias n) }

/-- The offsets of an edge of the graph. -/
def edgeOf (l : Layout) (g : Graph α) (e : Nat) : EdgeSlot :=
  { id := e
    src := g.src e
    dst := g.dst e
    rows := g.width (g.src e)
    cols := g.width (g.dst e)
    position := ((g.afferents (g.dst e)).idxOf? e).getD 0
    weight := l.slotOf (.weight e) }

/-- Stretches of a region, one for each number that `P` holds of, that do not meet. -/
structure Tiles (P : Nat → Prop) (size start : Nat → Nat) (total : Nat) : Prop where
  le : ∀ n, P n → start n + size n ≤ total
  disjoint : ∀ m n, P m → P n → m ≠ n →
    start m + size m ≤ start n ∨ start n + size n ≤ start m

/-- The layout gives every node, edge and parameter of the graph a place of its own. -/
structure Fits (l : Layout) (g : Graph α) : Prop where
  nodes_length : l.nodes.length = g.numNodes
  node : ∀ n < g.numNodes, l.nodes[n]? = some (l.nodeOf g n)
  edge : ∀ e < g.numEdges, l.edges[e]? = some (l.edgeOf g e)
  afferents : ∀ n < g.numNodes, l.afferents[n]? = some (g.afferents n)
  efferents : ∀ n < g.numNodes, l.efferents[n]? = some (g.efferents n)
  data : Tiles (· < g.numNodes) g.width l.dataAt l.dataLen
  input : Tiles (fun n => n < g.numNodes ∧ g.isSource n = true) g.width l.inputAt l.inputLen
  target : Tiles (fun n => n < g.numNodes ∧ g.isOutput n = true) g.width l.targetAt l.targetLen
  width_le : ∀ n < g.numNodes, g.width n ≤ l.scratchLen
  weight_len : ∀ e < g.numEdges,
    (l.slotOf (.weight e)).len = g.width (g.src e) * g.width (g.dst e)
  bias_len : ∀ n < g.numNodes, (g.bias? n).isSome = true → (l.slotOf (.bias n)).len = g.width n
  flat_le : ∀ o, (g.tensor? o).isSome = true →
    (l.slotOf o).flat + (l.slotOf o).len ≤ l.paramLen
  flat_disjoint : ∀ o o', (g.tensor? o).isSome = true → (g.tensor? o').isSome = true → o ≠ o' →
    (l.slotOf o).flat + (l.slotOf o).len ≤ (l.slotOf o').flat ∨
      (l.slotOf o').flat + (l.slotOf o').len ≤ (l.slotOf o).flat
  flat_cover : ∀ k < l.paramLen, ∃ o, (g.tensor? o).isSome = true ∧ (l.slotOf o).flat ≤ k ∧
    k < (l.slotOf o).flat + (l.slotOf o).len
  params : l.params = g.owners.map fun o => (o, l.slotOf o)

namespace Fits

variable {l : Layout} {g : Graph α} (h : l.Fits g)
include h

theorem afferentSlots_eq {n : Nat} (hn : n < g.numNodes) :
    l.afferentSlots n = (g.afferents n).map (l.edgeOf g) := by
  rw [afferentSlots, h.afferents n hn, Option.getD_some, ← List.filterMap_eq_map]
  exact List.filterMap_congr fun e he => h.edge e (g.mem_afferents.1 he).1

theorem efferentSlots_eq {n : Nat} (hn : n < g.numNodes) :
    l.efferentSlots n = (g.efferents n).map (l.edgeOf g) := by
  rw [efferentSlots, h.efferents n hn, Option.getD_some, ← List.filterMap_eq_map]
  exact List.filterMap_congr fun e he => h.edge e (g.mem_efferents.1 he).1

theorem nodes_eq : l.nodes = g.nodeIds.map (l.nodeOf g) := by
  apply List.ext_getElem?
  intro n
  by_cases hn : n < g.numNodes
  · simp [h.node n hn, Graph.nodeIds, hn]
  · have hlength := h.nodes_length
    simp [Graph.nodeIds, hn, List.getElem?_eq_none (show l.nodes.length ≤ n by omega)]

/-- The slots of a layout are those of the parameters. -/
theorem mem_slots {slot : Slot} :
    slot ∈ l.slots ↔ ∃ o, (g.tensor? o).isSome = true ∧ l.slotOf o = slot := by
  rw [slots, h.params, List.map_map, List.mem_map]
  exact exists_congr fun o => and_congr_left fun _ => Graph.mem_owners

/-- A slot is as long as the parameter it is for. -/
theorem len_eq {o : Owner} (ho : (g.tensor? o).isSome = true) :
    (l.slotOf o).len = g.extent o := by
  cases o with
  | weight e => exact h.weight_len e (Graph.isSome_tensor?_weight.1 ho)
  | bias n => exact h.bias_len n (Graph.lt_of_isSome_bias? ho) ho

end Fits

/-! ## Compiled layouts -/

/-- What a failure-free pass over a list returns, entry by entry. -/
theorem getElem?_of_mapM_eq_ok {ε ι τ : Type} {f : ι → Except ε τ} {xs : List ι} {ys : List τ}
    (h : xs.mapM f = .ok ys) :
    ys.length = xs.length ∧
      ∀ (i : Nat) x, xs[i]? = some x → ∃ y, f x = .ok y ∧ ys[i]? = some y := by
  induction xs generalizing ys with
  | nil =>
    obtain rfl := Except.ok.inj h
    exact ⟨rfl, fun i x hx => by simp at hx⟩
  | cons x xs ih =>
    rw [List.mapM_cons] at h
    cases hx : f x with
    | error e => rw [hx] at h; contradiction
    | ok y =>
      rw [hx] at h
      cases hxs : xs.mapM f with
      | error e => simp only [hxs] at h; contradiction
      | ok rest =>
        simp only [hxs] at h
        obtain rfl := Except.ok.inj h
        obtain ⟨hlen, hrest⟩ := ih hxs
        refine ⟨by rw [List.length_cons, List.length_cons, hlen], fun i x' hx' => ?_⟩
        cases i with
        | zero =>
          obtain rfl := Option.some.inj hx'
          exact ⟨y, hx, rfl⟩
        | succ i => exact hrest i x' hx'

theorem exists_mapM_eq_ok {ε ι τ : Type} {f : ι → Except ε τ} (xs : List ι)
    (h : ∀ x ∈ xs, ∃ y, f x = .ok y) : ∃ ys, xs.mapM f = .ok ys := by
  induction xs with
  | nil => exact ⟨[], rfl⟩
  | cons x xs ih =>
    obtain ⟨y, hy⟩ := h x List.mem_cons_self
    obtain ⟨ys, hys⟩ := ih fun z hz => h z (List.mem_cons_of_mem x hz)
    exact ⟨y :: ys, by rw [List.mapM_cons, hy, hys]; rfl⟩

variable {g : Graph α} {s : Schedule} {ownership : Ownership} {aux : Nat} {l : Layout}

/-- The parts of the layout of a scheduled graph. -/
structure OfSchedule (g : Graph α) (s : Schedule) (ownership : Ownership) (aux : Nat)
    (l : Layout) : Prop where
  schedule : g.schedule = .ok s
  built : ofSchedule g s ownership aux = .ok l
  params_eq : l.params = g.slots ownership
  ownership_eq : l.ownership = ownership
  afferents_eq : l.afferents = g.nodeIds.map g.afferents
  efferents_eq : l.efferents = g.nodeIds.map g.efferents
  inputLen_eq : l.inputLen = packedLength g.width (s.order.filter g.isSource)
  targetLen_eq : l.targetLen = packedLength g.width g.outputs
  dataLen_eq : l.dataLen = packedLength g.width s.order
  scratchLen_max : IsGreatest {w | w = 0 ∨ ∃ n ∈ s.order, g.width n = w} l.scratchLen
  paramLen_eq : l.paramLen = totalCount g.parameters
  optimizerLen_eq : l.optimizerLen = aux * l.paramLen
  nodes_eq : l.nodes = g.nodeIds.map (blocksOf g s.order l.params)
  edges_eq : g.edgeIds.mapM (edgeSlot g l.params) = .ok l.edges

/-- A schedule reaches every node, so the first pass over the nodes does not fail. -/
theorem mapM_slot_of_schedule (hs : g.schedule = .ok s) (params : List (Owner × Slot)) :
    (g.nodeIds.mapM (s.order.foldl (Placing.add g params) (.start g.numNodes)).slot :
      Except (Error α) (List NodeSlot)) =
      .ok (g.nodeIds.map fun n => { blocksOf g s.order params n with target := none }) :=
  have hlinear := Graph.linearizes_of_schedule hs
  mapM_slot_eq_ok hlinear.nodup fun n hn => (hlinear.mem_iff n).2 hn

theorem ofSchedule_spec (hs : g.schedule = .ok s) (h : ofSchedule g s ownership aux = .ok l) :
    OfSchedule g s ownership aux l := by
  have hbuilt := h
  simp only [ofSchedule, mapM_slot_of_schedule hs] at h
  cases hedges : g.edgeIds.mapM (edgeSlot g (g.slots ownership)) with
  | error e => simp only [hedges] at h; contradiction
  | ok edges =>
    simp only [hedges] at h
    obtain rfl := Except.ok.inj h
    have hplaced := placeTargets_nodeIds g s.order (g.slots ownership)
    exact
      { schedule := hs
        built := hbuilt
        params_eq := rfl
        ownership_eq := rfl
        afferents_eq := rfl
        efferents_eq := rfl
        inputLen_eq := Placing.inputLen_foldl.trans (Nat.zero_add _)
        targetLen_eq := congrArg Prod.snd hplaced
        dataLen_eq := Placing.dataLen_foldl.trans (Nat.zero_add _)
        scratchLen_max := Placing.isGreatest_scratchLen_foldl
        paramLen_eq :=
          (congrArg (packedLength _) (g.slots_eq_slotTable ownership)).trans packedLength_slotTable
        optimizerLen_eq := rfl
        nodes_eq := congrArg Prod.fst hplaced
        edges_eq := hedges }

/-- A scheduled graph has a layout: the schedule reaches every node, and every edge is among those
into its destination. -/
theorem exists_ofSchedule (hs : g.schedule = .ok s) (ownership : Ownership) (aux : Nat) :
    ∃ l, ofSchedule g s ownership aux = .ok l := by
  obtain ⟨edges, hedges⟩ := exists_mapM_eq_ok (f := edgeSlot g (g.slots ownership))
    g.edgeIds fun e he => by
      have hlt := g.mem_edgeIds.1 he
      have hposition : ((g.afferents (g.dst e)).idxOf? e).isSome = true := by
        rw [List.isSome_idxOf?]
        exact g.mem_afferents.2 ⟨hlt, rfl⟩
      obtain ⟨position, hposition⟩ := Option.isSome_iff_exists.1 hposition
      have hweight := Graph.getElem?_owners_weight hlt
      rw [← g.map_fst_slots ownership, List.getElem?_map, Option.map_eq_some_iff] at hweight
      obtain ⟨⟨o, weight⟩, hweight, -⟩ := hweight
      exact ⟨_, by rw [edgeSlot, hposition, hweight]⟩
  exact ⟨_, by simp only [ofSchedule, mapM_slot_of_schedule hs, hedges]; rfl⟩

/-- What compilation has checked by the time it returns a layout. -/
theorem compile_spec {h : Host α} {store : Store α}
    (hc : compile g h ownership aux = .ok (s, l, store)) :
    g.schedule = .ok s ∧ g.shapeFault? = none ∧
      Store.place ownership h (g.parameters.map Prod.snd) = .ok store ∧
      OfSchedule g s ownership aux l := by
  rw [compile] at hc
  split at hc
  · contradiction
  · rename_i schedule hschedule
    split at hc
    · contradiction
    · rename_i hshape
      split at hc
      · contradiction
      · rename_i store' hstore
        split at hc
        · contradiction
        · rename_i layout hlayout
          obtain ⟨rfl, rfl, rfl⟩ := Prod.mk.inj (Except.ok.inj hc) |>.imp id Prod.mk.inj
          exact ⟨hschedule, hshape, hstore, ofSchedule_spec hschedule hlayout⟩

/-! ## Fitting layouts -/

namespace OfSchedule

/-- The node slots that compilation found. -/
theorem getElem?_nodes (h : OfSchedule g s ownership aux l) {n : Nat} (hn : n < g.numNodes) :
    ∃ data, (packed g.width 0 s.order).lookup n = some data ∧
      l.nodes[n]? = some
        { id := n
          width := g.width n
          data
          input := (packed g.width 0 (s.order.filter g.isSource)).lookup n
          target := (packed g.width 0 g.outputs).lookup n
          bias := l.params.lookup (.bias n) } := by
  have hmem := ((Graph.linearizes_of_schedule h.schedule).mem_iff n).2 hn
  obtain ⟨data, hdata⟩ :=
    Option.isSome_iff_exists.1 ((isSome_lookup_packed g.width 0 s.order n).2 hmem)
  refine ⟨data, hdata, ?_⟩
  rw [h.nodes_eq, List.getElem?_map, Graph.nodeIds, List.getElem?_range hn, Option.map_some,
    blocksOf, hdata, Option.getD_some]

theorem lookup_dataAt (h : OfSchedule g s ownership aux l) {n : Nat} (hn : n < g.numNodes) :
    (packed g.width 0 s.order).lookup n = some (l.dataAt n) := by
  obtain ⟨data, hdata, hget⟩ := h.getElem?_nodes hn
  rw [hdata, dataAt, hget]
  rfl

theorem lookup_inputAt (h : OfSchedule g s ownership aux l) (hs : g.schedule = .ok s) {n : Nat}
    (hn : n < g.numNodes) : (packed g.width 0 (s.order.filter g.isSource)).lookup n =
      if g.isSource n then some (l.inputAt n) else none := by
  obtain ⟨data, -, hget⟩ := h.getElem?_nodes hn
  rw [inputAt, hget]
  refine lookup_packed_eq_ite _ _ _ ?_
  have hmem := (Graph.linearizes_of_schedule hs).mem_iff n
  rw [List.mem_filter, hmem]
  exact ⟨And.right, fun hsource => ⟨hn, hsource⟩⟩

theorem lookup_targetAt (h : OfSchedule g s ownership aux l) {n : Nat} (hn : n < g.numNodes) :
    (packed g.width 0 g.outputs).lookup n =
      if g.isOutput n then some (l.targetAt n) else none := by
  obtain ⟨data, -, hget⟩ := h.getElem?_nodes hn
  rw [targetAt, hget]
  refine lookup_packed_eq_ite _ _ _ ?_
  rw [Graph.outputs, List.mem_filter, Graph.mem_nodeIds]
  exact ⟨And.right, fun houtput => ⟨hn, houtput⟩⟩

/-- A region that is packed for the nodes that `p` holds of has no gaps. -/
theorem exists_of_lt_packedLength {keys : List Nat} {p : Nat → Bool} {start : Nat → Nat}
    (hnodup : keys.Nodup) (hmem : ∀ n ∈ keys, n < g.numNodes)
    (hlookup : ∀ n < g.numNodes,
      (packed g.width 0 keys).lookup n = if p n then some (start n) else none)
    {k : Nat} (hk : k < packedLength g.width keys) :
    ∃ n < g.numNodes, p n = true ∧ start n ≤ k ∧ k < start n + g.width n := by
  obtain ⟨n, o, ho, hle, hlt⟩ := exists_lookup_packed hnodup (Nat.zero_le k)
    (show k < 0 + packedLength g.width keys by omega)
  have hn := hmem n ((isSome_lookup_packed g.width 0 _ n).1 (by rw [ho, Option.isSome_some]))
  have hplace := hlookup n hn
  rw [ho] at hplace
  split at hplace
  · rename_i hp
    obtain rfl := Option.some.inj hplace
    exact ⟨n, hn, hp, hle, hlt⟩
  · contradiction

/-- Every element of the packed inputs belongs to a source node. -/
theorem input_cover (h : OfSchedule g s ownership aux l) {k : Nat} (hk : k < l.inputLen) :
    ∃ n < g.numNodes, g.isSource n = true ∧ l.inputAt n ≤ k ∧ k < l.inputAt n + g.width n := by
  have hlinear := Graph.linearizes_of_schedule h.schedule
  exact exists_of_lt_packedLength (hlinear.nodup.filter g.isSource)
    (fun n hn => (hlinear.mem_iff n).1 (List.mem_filter.1 hn).1)
    (fun _ hn => h.lookup_inputAt h.schedule hn) (h.inputLen_eq ▸ hk)

/-- Every element of the packed targets belongs to an output node. -/
theorem target_cover (h : OfSchedule g s ownership aux l) {k : Nat} (hk : k < l.targetLen) :
    ∃ n < g.numNodes, g.isOutput n = true ∧ l.targetAt n ≤ k ∧ k < l.targetAt n + g.width n :=
  exists_of_lt_packedLength (List.nodup_range.filter g.isOutput)
    (fun _ hn => g.mem_nodeIds.1 (List.mem_filter.1 hn).1)
    (fun _ hn => h.lookup_targetAt hn) (h.targetLen_eq ▸ hk)

/-- An owner has a slot exactly if it has a tensor, with as many elements. -/
theorem lookup_params (h : OfSchedule g s ownership aux l) (o : Owner) :
    (l.params.lookup o).map Slot.len = (g.tensor? o).map Tensor.count := by
  rw [h.params_eq, g.slots_eq_slotTable, lookup_slotTable, g.lookup_parameters]

theorem lookup_slotOf (h : OfSchedule g s ownership aux l) {o : Owner} {t : Tensor}
    (ht : g.tensor? o = some t) :
    l.params.lookup o = some (l.slotOf o) ∧ (l.slotOf o).len = t.count := by
  have hlen := h.lookup_params o
  rw [ht, Option.map_some, Option.map_eq_some_iff] at hlen
  obtain ⟨slot, hslot, hcount⟩ := hlen
  have hof : l.slotOf o = slot := by rw [slotOf, hslot, Option.getD_some]
  exact ⟨hof ▸ hslot, hof ▸ hcount⟩

/-- The parameters in flat order, each with its slot. -/
theorem params_eq_map (h : OfSchedule g s ownership aux l) :
    l.params = g.owners.map fun o => (o, l.slotOf o) := by
  have hkeys : l.params.map Prod.fst = g.owners := by rw [h.params_eq, g.map_fst_slots]
  rw [← hkeys]
  exact eq_map_lookup (hkeys ▸ g.nodup_owners) default

/-- The slot of an owner stands after the slots of the parameters before it. -/
theorem split_slotOf (h : OfSchedule g s ownership aux l) {o : Owner} {t : Tensor}
    (ht : g.tensor? o = some t) :
    ∃ before after, g.parameters = before ++ (o, t) :: after ∧
      (l.slotOf o).flat = totalCount before ∧
      (ownership = .copy → (l.slotOf o).offset = (l.slotOf o).flat) ∧
      (ownership = .reference → (l.slotOf o).buffer = before.length ∧ (l.slotOf o).offset = 0) := by
  have hlookup := (h.lookup_slotOf ht).1
  rw [h.params_eq, g.slots_eq_slotTable] at hlookup
  obtain ⟨before, u, after, hsplit, hflat, hcopy, hreference⟩ :=
    exists_split_of_lookup_slotTable hlookup
  have hu : (o, u) ∈ g.parameters := hsplit ▸ by simp
  obtain rfl := Option.some.inj ((Graph.mem_parameters.1 hu).symm.trans ht)
  simp only [Nat.zero_add] at hflat hreference
  exact ⟨before, after, hsplit, hflat, hcopy, hreference⟩

/-- The host tensors stand at the flat offsets of their owners. -/
theorem packed_parameters (h : OfSchedule g s ownership aux l) :
    packed Tensor.count 0 (g.parameters.map Prod.snd) =
      g.parameters.map fun p => (p.2, (l.slotOf p.1).flat) := by
  have hslots : slotTable ownership 0 0 g.parameters =
      g.parameters.map fun p => (p.1, l.slotOf p.1) := by
    rw [← g.slots_eq_slotTable, ← h.params_eq, h.params_eq_map, Graph.owners, List.map_map]
    rfl
  have hzip : g.parameters.zip (g.parameters.map fun p => (p.1, l.slotOf p.1)) =
      g.parameters.map fun p => (p, (p.1, l.slotOf p.1)) := by
    conv_lhs => rw [← List.map_id g.parameters, List.map_map, List.zip_map']
    rfl
  rw [packed_eq_slotTable ownership 0, hslots, hzip, List.map_map]
  rfl

theorem lookup_bias (h : OfSchedule g s ownership aux l) (n : Nat) :
    l.params.lookup (.bias n) = (g.bias? n).map fun _ => l.slotOf (.bias n) := by
  cases hbias : g.bias? n with
  | none =>
    have hlen := h.lookup_params (.bias n)
    rw [Graph.tensor?, hbias, Option.map_none, Option.map_eq_none_iff] at hlen
    exact hlen
  | some t => exact (h.lookup_slotOf (o := .bias n) hbias).1

end OfSchedule

theorem tensor?_weight {e : Nat} (he : e < g.numEdges) :
    g.tensor? (.weight e) = some g.edges[e].weight := by
  rw [Graph.tensor?, Array.getElem?_eq_getElem he, Option.map_some]

/-- The weights of a graph without a shape fault are matrices between the widths of their ends. -/
theorem count_weight (hshape : g.shapeFault? = none) {e : Nat} (he : e < g.numEdges) :
    g.edges[e].weight.count = g.width (g.src e) * g.width (g.dst e) := by
  rw [Graph.shapeFault?, Option.or_eq_none_iff, List.findSome?_eq_none_iff] at hshape
  have hfault := hshape.1 e (g.mem_edgeIds.2 he)
  rw [Graph.weightFault?, Array.getElem?_eq_getElem he] at hfault
  have hmatrix : g.edges[e].weight.shape = g.weightShape e := by
    by_contra hne
    simp [hne] at hfault
  rw [Tensor.count, hmatrix, Graph.weightShape, Shape.count_matrix]

/-- The biases of a graph without a shape fault sit on nodes with incoming edges, and are as wide
as their nodes. -/
theorem bias_of_shapeFault?_eq_none (hshape : g.shapeFault? = none) {n : Nat}
    (hn : n < g.numNodes) {t : Tensor} (ht : g.bias? n = some t) :
    g.isSource n = false ∧ t.count = g.width n := by
  rw [Graph.shapeFault?, Option.or_eq_none_iff, List.findSome?_eq_none_iff,
    List.findSome?_eq_none_iff] at hshape
  have hfault := hshape.2 n (g.mem_nodeIds.2 hn)
  rw [Graph.biasFault?, ht] at hfault
  by_cases hsource : g.isSource n = true
  · simp [hsource] at hfault
  · refine ⟨Bool.eq_false_iff.2 hsource, ?_⟩
    have hvector : t.shape = .vector (g.width n) := by
      by_contra hne
      simp [hsource, hne] at hfault
    rw [Tensor.count, hvector, Shape.count_vector]

/-- The tensors of a graph without a shape fault have as many elements as their owners need. -/
theorem count_eq_extent (hshape : g.shapeFault? = none) {o : Owner} {t : Tensor}
    (ht : g.tensor? o = some t) : t.count = g.extent o := by
  have hsome : (g.tensor? o).isSome = true := by rw [ht, Option.isSome_some]
  cases o with
  | weight e =>
    have he := Graph.isSome_tensor?_weight.1 hsome
    rw [tensor?_weight he] at ht
    exact Option.some.inj ht ▸ count_weight hshape he
  | bias n => exact (bias_of_shapeFault?_eq_none hshape (Graph.lt_of_isSome_bias? hsome) ht).2

/-- The stretches that a packing gives out lie within it and do not meet. -/
theorem tiles_of_lookup_packed {P : Nat → Prop} {size start : Nat → Nat} {ns : List Nat}
    (h : ∀ n, P n → (packed size 0 ns).lookup n = some (start n)) :
    Tiles P size start (packedLength size ns) where
  le n hn := by
    have hle := (lookup_packed_le (h n hn)).2
    omega
  disjoint m n hm hn hne := disjoint_of_lookup_packed hne (h m hm) (h n hn)

namespace OfSchedule

/-- The parameter of the same number as an edge is its weight. -/
theorem getElem?_params_weight (h : OfSchedule g s ownership aux l) {e : Nat}
    (he : e < g.numEdges) : l.params[e]? = some (.weight e, l.slotOf (.weight e)) := by
  rw [h.params_eq_map, List.getElem?_map, Graph.getElem?_owners_weight he, Option.map_some]

/-- The edge slots that compilation found. -/
theorem getElem?_edges (h : OfSchedule g s ownership aux l) {e : Nat} (he : e < g.numEdges) :
    l.edges[e]? = some (l.edgeOf g e) := by
  obtain ⟨slot, hslot, hget⟩ :=
    (getElem?_of_mapM_eq_ok h.edges_eq).2 e e (by simp [Graph.edgeIds, he])
  rw [edgeSlot] at hslot
  split at hslot
  · rename_i position o weight hposition hweight
    obtain rfl := Except.ok.inj hslot
    rw [h.getElem?_params_weight he] at hweight
    obtain ⟨-, rfl⟩ := Prod.mk.inj (Option.some.inj hweight)
    rw [hget, edgeOf, hposition, Option.getD_some]
  · contradiction

/-- The slot of an owner as the table of slots has it. -/
theorem lookup_slotTable (h : OfSchedule g s ownership aux l) {o : Owner}
    (ho : (g.tensor? o).isSome = true) :
    (slotTable ownership 0 0 g.parameters).lookup o = some (l.slotOf o) := by
  rw [← g.slots_eq_slotTable, ← h.params_eq]
  exact (h.lookup_slotOf (Option.get_mem ho)).1

/-- Every element of the flat vector lies in the slot of some owner. -/
theorem exists_owner (h : OfSchedule g s ownership aux l) {k : Nat} (hk : k < l.paramLen) :
    ∃ o, (g.tensor? o).isSome = true ∧ (l.slotOf o).flat ≤ k ∧
      k < (l.slotOf o).flat + (l.slotOf o).len := by
  rw [h.paramLen_eq] at hk
  obtain ⟨o, slot, hlookup, hle, hlt⟩ := exists_lookup_slotTable ownership 0
    g.nodup_owners (Nat.zero_le k) (by omega)
  have ho : (g.tensor? o).isSome = true := by
    rw [← Option.isSome_map (f := Tensor.count), ← h.lookup_params, h.params_eq,
      g.slots_eq_slotTable, hlookup]
    rfl
  obtain rfl := Option.some.inj (hlookup.symm.trans (h.lookup_slotTable ho))
  exact ⟨o, ho, hle, hlt⟩

/-- The layout of a scheduled graph whose shapes fit gives everything a place of its own. -/
theorem fits (h : OfSchedule g s ownership aux l) (hs : g.schedule = .ok s)
    (hshape : g.shapeFault? = none) : l.Fits g where
  nodes_length := by
    rw [h.nodes_eq, List.length_map, Graph.nodeIds, List.length_range]
  node n hn := by
    obtain ⟨data, hdata, hget⟩ := h.getElem?_nodes hn
    rw [hget, h.lookup_inputAt hs hn, h.lookup_targetAt hn, h.lookup_bias n]
    rw [h.lookup_dataAt hn] at hdata
    obtain rfl := Option.some.inj hdata
    rfl
  edge e he := h.getElem?_edges he
  afferents n hn := by simp [h.afferents_eq, Graph.nodeIds, hn]
  efferents n hn := by simp [h.efferents_eq, Graph.nodeIds, hn]
  data := by
    rw [h.dataLen_eq]
    exact tiles_of_lookup_packed fun n hn => h.lookup_dataAt hn
  input := by
    rw [h.inputLen_eq]
    exact tiles_of_lookup_packed fun n hn => by rw [h.lookup_inputAt hs hn.1, if_pos hn.2]
  target := by
    rw [h.targetLen_eq]
    exact tiles_of_lookup_packed fun n hn => by rw [h.lookup_targetAt hn.1, if_pos hn.2]
  width_le n hn := h.scratchLen_max.2
    (.inr ⟨n, ((Graph.linearizes_of_schedule hs).mem_iff n).2 hn, rfl⟩)
  weight_len e he := (h.lookup_slotOf (tensor?_weight he)).2.trans (count_weight hshape he)
  bias_len n hn hbias := by
    obtain ⟨t, ht⟩ := Option.isSome_iff_exists.1 hbias
    exact (h.lookup_slotOf (o := .bias n) ht).2.trans (count_eq_extent hshape (o := .bias n) ht)
  flat_le o ho := by
    have hle := (lookup_slotTable_le (h.lookup_slotTable ho)).2
    rw [h.paramLen_eq]
    omega
  flat_disjoint o o' ho ho' hne :=
    disjoint_of_lookup_slotTable hne (h.lookup_slotTable ho) (h.lookup_slotTable ho')
  flat_cover k hk := h.exists_owner hk
  params := h.params_eq_map

end OfSchedule

/-- Every layout that compilation returns gives everything a place of its own. -/
theorem fits_of_compile {h : Host α} {store : Store α}
    (hc : compile g h ownership aux = .ok (s, l, store)) : l.Fits g := by
  obtain ⟨hs, hshape, -, hlayout⟩ := compile_spec hc
  exact hlayout.fits hs hshape

end Layout

end GraphTape
