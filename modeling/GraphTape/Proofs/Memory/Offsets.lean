import GraphTape.Proofs.Graph.Layers
import GraphTape.Proofs.Memory.Alike
import Mathlib.Order.Bounds.Basic

/-!
# Exact layouts

A layout wastes nothing: in every region the stretches follow one another from the first element
to the last, each region in its own order. Node values and inputs come in the order of the
schedule, targets by ascending node id, and parameters by ascending edge id and then by ascending
node id. The ownership decides in which buffer a parameter lives, and nothing else.

* `Consecutive`: stretches without a gap and without an overlap.
* `Layout.Exact`: every region of a layout is made up of the stretches it is for.
* `Layout.compile_lays_out_exactly`: compilation returns exact layouts only, which are the same
  for both ownerships but for the places of the live values.
-/

namespace GraphTape

/-! ## Stretches one after the other -/

/-- Stretches, each given by its first element and its length, that follow one another from
`start` on and end before `stop`: none of them overlap, and no element is left out. -/
def Consecutive (stop : Nat) : Nat → List (Nat × Nat) → Prop
  | start, [] => start = stop
  | start, (first, len) :: rest => first = start ∧ Consecutive stop (start + len) rest

theorem consecutive_packed {κ : Type} (size : κ → Nat) (start : Nat) (keys : List κ) :
    Consecutive (start + packedLength size keys) start
      ((packed size start keys).map fun p => (p.2, size p.1)) := by
  induction keys generalizing start with
  | nil => rfl
  | cons k keys ih =>
    have hrest := ih (start + size k)
    rw [Nat.add_assoc] at hrest
    exact ⟨rfl, hrest⟩

/-- Blocks of different keys, each with its key. -/
theorem packed_eq_map {κ : Type} [BEq κ] [LawfulBEq κ] (size : κ → Nat) (start : Nat)
    {keys : List κ} (hnodup : keys.Nodup) :
    packed size start keys = keys.filterMap fun k =>
      ((packed size start keys).lookup k).map fun first => (k, first) := by
  have hkeys : (packed size start keys).map Prod.fst = keys := by
    clear hnodup
    induction keys generalizing start with
    | nil => rfl
    | cons k keys ih => rw [packed, List.map_cons, ih]
  have hdistinct : ((packed size start keys).map Prod.fst).Nodup := by rwa [hkeys]
  refine (eq_map_lookup hdistinct 0).trans ?_
  rw [hkeys, ← List.filterMap_eq_map]
  refine List.filterMap_congr fun k hk => ?_
  obtain ⟨first, hfirst⟩ :=
    Option.isSome_iff_exists.1 ((isSome_lookup_packed size start keys k).2 hk)
  rw [hfirst, Function.comp_apply, hfirst]
  rfl

section SlotTable

variable {ownership : Ownership} {i flat : Nat} {ps : List (Owner × Tensor)}

theorem consecutive_slotTable (ownership : Ownership) (i flat : Nat) (ps : List (Owner × Tensor)) :
    Consecutive (flat + totalCount ps) flat
      ((slotTable ownership i flat ps).map fun p => (p.2.flat, p.2.len)) := by
  induction ps generalizing i flat with
  | nil => rfl
  | cons p ps ih =>
    have hrest := ih (i + 1) (flat + p.2.count)
    rw [Nat.add_assoc] at hrest
    rw [slotTable_cons, List.map_cons, alignedSlot_flat, alignedSlot_len]
    exact ⟨rfl, hrest⟩

/-- Where the live values of a parameter are: behind one another in one buffer, or each in a
buffer of its own. -/
def Slot.Placed (ownership : Ownership) (i : Nat) (slot : Slot) : Prop :=
  match ownership with
  | .copy => slot.buffer = 0 ∧ slot.offset = slot.flat
  | .reference => slot.buffer = i ∧ slot.offset = 0

theorem placed_of_getElem?_slotTable {j : Nat} {p : Owner × Slot}
    (h : (slotTable ownership i flat ps)[j]? = some p) : p.2.Placed ownership (i + j) := by
  induction ps generalizing i flat j with
  | nil => simp [slotTable] at h
  | cons q ps ih =>
    rw [slotTable_cons] at h
    cases j with
    | zero =>
      obtain rfl := Option.some.inj h
      cases ownership <;> exact ⟨rfl, rfl⟩
    | succ j =>
      rw [List.getElem?_cons_succ] at h
      have hrest := ih h
      rwa [Nat.add_assoc, Nat.add_comm 1 j] at hrest

end SlotTable

/-! ## The same layout under another ownership -/

/-- A slot without the place of its live values. -/
def Slot.unplaced (slot : Slot) : Slot := { slot with buffer := 0, offset := 0 }

theorem unplaced_slotTable (ownership ownership' : Ownership) (i i' flat : Nat)
    (ps : List (Owner × Tensor)) :
    (slotTable ownership i flat ps).map (fun p => (p.1, p.2.unplaced)) =
      (slotTable ownership' i' flat ps).map fun p => (p.1, p.2.unplaced) := by
  induction ps generalizing i i' flat with
  | nil => rfl
  | cons p ps ih =>
    rw [slotTable_cons, slotTable_cons, List.map_cons, List.map_cons, ih _ (i' + 1)]
    cases ownership <;> cases ownership' <;> rfl

theorem lookup_map_snd {κ τ υ : Type} [BEq κ] (f : τ → υ) (table : List (κ × τ)) (k : κ) :
    (table.map fun p => (p.1, f p.2)).lookup k = (table.lookup k).map f := by
  induction table with
  | nil => rfl
  | cons p table ih =>
    rw [List.map_cons, List.lookup_cons, List.lookup_cons, ih]
    cases k == p.1 <;> rfl

namespace Layout

variable {α : Type}

/-- A layout without its ownership and without the places of the live values. -/
def unplaced (l : Layout) : Layout :=
  { l with
    nodes := l.nodes.map fun slot => { slot with bias := slot.bias.map Slot.unplaced }
    edges := l.edges.map fun slot => { slot with weight := slot.weight.unplaced }
    params := l.params.map fun p => (p.1, p.2.unplaced)
    ownership := default }

variable {g : Graph α} {s : Schedule} {ownership ownership' : Ownership} {aux : Nat}
  {l l' : Layout}

namespace OfSchedule

theorem edges_eq_map (h : OfSchedule g s ownership aux l) :
    l.edges = g.edgeIds.map (l.edgeOf g) := by
  have hlength := (getElem?_of_mapM_eq_ok h.edges_eq).1
  refine List.ext_getElem? fun e => ?_
  by_cases he : e < g.numEdges
  · simp [h.getElem?_edges he, Graph.edgeIds, he]
  · rw [List.getElem?_eq_none (by simp [Graph.edgeIds] at hlength; omega),
      List.getElem?_eq_none (by simp [Graph.edgeIds]; omega)]

theorem unplaced_params_eq (h : OfSchedule g s ownership aux l)
    (h' : OfSchedule g s ownership' aux l') :
    l.params.map (fun p => (p.1, p.2.unplaced)) = l'.params.map fun p => (p.1, p.2.unplaced) := by
  rw [h.params_eq, h'.params_eq, g.slots_eq_slotTable, g.slots_eq_slotTable]
  exact unplaced_slotTable ..

theorem unplaced_lookup_eq (h : OfSchedule g s ownership aux l)
    (h' : OfSchedule g s ownership' aux l') (o : Owner) :
    (l.params.lookup o).map Slot.unplaced = (l'.params.lookup o).map Slot.unplaced := by
  rw [← lookup_map_snd, ← lookup_map_snd, h.unplaced_params_eq h']

theorem unplaced_slotOf_eq (h : OfSchedule g s ownership aux l)
    (h' : OfSchedule g s ownership' aux l') (o : Owner) :
    (l.slotOf o).unplaced = (l'.slotOf o).unplaced := by
  rw [slotOf, slotOf, ← Option.getD_map Slot.unplaced, ← Option.getD_map Slot.unplaced,
    h.unplaced_lookup_eq h']

/-- The ownership decides where the live values are, and nothing else. -/
theorem unplaced_eq (h : OfSchedule g s ownership aux l)
    (h' : OfSchedule g s ownership' aux l') : l.unplaced = l'.unplaced := by
  have hnodes : l.unplaced.nodes = l'.unplaced.nodes := by
    rw [unplaced, unplaced, h.nodes_eq, h'.nodes_eq, List.map_map, List.map_map]
    refine List.map_congr_left fun n _ => ?_
    simp only [Function.comp_apply, blocksOf, h.unplaced_lookup_eq h']
  have hedges : l.unplaced.edges = l'.unplaced.edges := by
    rw [unplaced, unplaced, h.edges_eq_map, h'.edges_eq_map, List.map_map, List.map_map]
    refine List.map_congr_left fun e _ => ?_
    simp only [Function.comp_apply, edgeOf, h.unplaced_slotOf_eq h']
  have hparamLen : l.paramLen = l'.paramLen := h.paramLen_eq.trans h'.paramLen_eq.symm
  simp only [unplaced, mk.injEq]
  exact ⟨hnodes, hedges, h.afferents_eq.trans h'.afferents_eq.symm,
    h.efferents_eq.trans h'.efferents_eq.symm, h.unplaced_params_eq h', trivial,
    h.inputLen_eq.trans h'.inputLen_eq.symm, h.targetLen_eq.trans h'.targetLen_eq.symm,
    h.dataLen_eq.trans h'.dataLen_eq.symm, h.scratchLen_max.unique h'.scratchLen_max, hparamLen,
    by rw [h.optimizerLen_eq, h'.optimizerLen_eq, hparamLen]⟩

end OfSchedule

/-! ## Exact layouts -/

/-- The stretches of the nodes in the given order that have one in some region. -/
def stretches (l : Layout) (first? : NodeSlot → Option Nat) (order : List Nat) :
    List (Nat × Nat) :=
  order.filterMap fun n => (l.nodes[n]?).bind fun slot =>
    (first? slot).map fun first => (first, slot.width)

/-- Every region of the layout is made up of the stretches it is for, one after the other, and the
tables of the layout list the nodes, edges and parameters of the graph. -/
structure Exact (l : Layout) (g : Graph α) (s : Schedule) (aux : Nat) : Prop where
  order : s.order.Perm g.nodeIds
  nodes_length : l.nodes.length = g.numNodes
  node : ∀ n < g.numNodes, ∃ slot, l.nodes[n]? = some slot ∧ slot.id = n ∧
    slot.width = g.width n ∧ slot.input.isSome = g.isSource n ∧
    slot.target.isSome = g.isOutput n ∧
    ∀ bias, slot.bias = some bias ↔ (.bias n, bias) ∈ l.params
  edges_length : l.edges.length = g.numEdges
  edge : ∀ e < g.numEdges, ∃ slot, l.edges[e]? = some slot ∧ slot.id = e ∧
    slot.src = g.src e ∧ slot.dst = g.dst e ∧ slot.rows = g.width slot.src ∧
    slot.cols = g.width slot.dst ∧ l.params[e]? = some (.weight e, slot.weight)
  data : Consecutive l.dataLen 0 (l.stretches (fun slot => some slot.data) s.order)
  input : Consecutive l.inputLen 0 (l.stretches NodeSlot.input s.order)
  target : Consecutive l.targetLen 0 (l.stretches NodeSlot.target g.nodeIds)
  owners : l.params.map Prod.fst =
    g.edgeIds.map .weight ++ (g.nodeIds.filter fun n => (g.bias? n).isSome).map .bias
  flat : Consecutive l.paramLen 0 (l.params.map fun p => (p.2.flat, p.2.len))
  weight_len : ∀ e slot, (.weight e, slot) ∈ l.params →
    slot.len = g.width (g.src e) * g.width (g.dst e)
  bias_len : ∀ n slot, (.bias n, slot) ∈ l.params → slot.len = g.width n
  placed : ∀ (i : Nat) p, l.params[i]? = some p → p.2.Placed l.ownership i
  scratch : IsGreatest {w | ∃ n < g.numNodes, g.width n = w} l.scratchLen
  optimizer : l.optimizerLen = aux * l.paramLen
  afferents : ∀ n < g.numNodes, ∃ ids, l.afferents[n]? = some ids ∧ ids.Pairwise (· < ·) ∧
    ∀ e, e ∈ ids ↔ e < g.numEdges ∧ g.dst e = n
  efferents : ∀ n < g.numNodes, ∃ ids, l.efferents[n]? = some ids ∧ ids.Pairwise (· < ·) ∧
    ∀ e, e ∈ ids ↔ e < g.numEdges ∧ g.src e = n
  position : ∀ (e : Nat) slot, l.edges[e]? = some slot →
    ∃ ids, l.afferents[slot.dst]? = some ids ∧ ids[slot.position]? = some e

namespace OfSchedule

variable (h : OfSchedule g s ownership aux l)
include h

/-- The blocks that the nodes of a region have lie one after the other. -/
theorem consecutive_stretches {order : List Nat} (hnodup : order.Nodup)
    (hlt : ∀ n ∈ order, n < g.numNodes) {first? : NodeSlot → Option Nat} {keep : Nat → Bool}
    {members : List Nat} (hmembers : order.filter keep = members)
    (hfirst : ∀ n < g.numNodes, first? (blocksOf g s.order l.params n) =
      (packed g.width 0 members).lookup n) :
    Consecutive (packedLength g.width members) 0 (l.stretches first? order) := by
  subst hmembers
  have hstretches : l.stretches first? order =
      (packed g.width 0 (order.filter keep)).map fun p => (p.2, g.width p.1) := by
    rw [stretches, packed_eq_map g.width 0 (hnodup.filter keep), List.map_filterMap,
      List.filterMap_filter]
    refine List.filterMap_congr fun n hn => ?_
    have hslot : l.nodes[n]? = some (blocksOf g s.order l.params n) := by
      rw [h.nodes_eq, List.getElem?_map, Graph.nodeIds, List.getElem?_range (hlt n hn),
        Option.map_some]
    rw [hslot, Option.bind_some, hfirst n (hlt n hn), Option.map_map]
    -- a node outside the region has no block in it
    cases hkeep : keep n with
    | true => rfl
    | false =>
      have hnone : (packed g.width 0 (order.filter keep)).lookup n = none :=
        Option.not_isSome_iff_eq_none.1 fun hsome => by
          have := (isSome_lookup_packed ..).1 hsome
          simp [hkeep] at this
      rw [hnone]
      rfl
  have hconsecutive := consecutive_packed g.width 0 (order.filter keep)
  rwa [Nat.zero_add, ← hstretches] at hconsecutive

/-- The scratch vector has room for the widest node, and no more. -/
theorem isGreatest_scratchLen :
    IsGreatest {w | ∃ n < g.numNodes, g.width n = w} l.scratchLen := by
  have hmem := (Graph.linearizes_of_schedule h.schedule).mem_iff
  obtain ⟨hreached, hbound⟩ := h.scratchLen_max
  refine ⟨?_, ?_⟩
  · rcases hreached with hzero | ⟨n, hn, hwidth⟩
    · -- no node has width zero
      have hfirst := hbound (.inr ⟨0, (hmem 0).2 g.nodes_pos, rfl⟩)
      have := g.width_pos_of_lt (n := 0) g.nodes_pos
      omega
    · exact ⟨n, (hmem n).1 hn, hwidth⟩
  · rintro w ⟨n, hn, hwidth⟩
    exact hbound (.inr ⟨n, (hmem n).2 hn, hwidth⟩)

/-- An edge stands at its position among the edges into its destination. -/
theorem getElem?_position (e : Nat) (slot : EdgeSlot) (hslot : l.edges[e]? = some slot) :
    ∃ ids, l.afferents[slot.dst]? = some ids ∧ ids[slot.position]? = some e := by
  have he : e < g.numEdges := by
    have := (List.getElem?_eq_some_iff.1 hslot).1
    rwa [h.edges_eq_map, List.length_map, Graph.edgeIds, List.length_range] at this
  obtain rfl := Option.some.inj ((h.getElem?_edges he).symm.trans hslot)
  obtain ⟨position, hposition⟩ :=
    Option.isSome_iff_exists.1 (List.isSome_idxOf?.2 (g.mem_afferents.2 ⟨he, rfl⟩))
  refine ⟨g.afferents (g.dst e), ?_, ?_⟩
  · have hdst : g.dst e < g.numNodes := g.dst_lt he
    simp [h.afferents_eq, edgeOf, Graph.nodeIds, hdst]
  · obtain ⟨hlength, heq, -⟩ := List.idxOf?_eq_some_iff.1 hposition
    rw [edgeOf, hposition, Option.getD_some]
    exact List.getElem?_eq_some_iff.2 ⟨hlength, heq⟩

theorem exact (hshape : g.shapeFault? = none) : l.Exact g s aux := by
  have hs := h.schedule
  have hlinear := Graph.linearizes_of_schedule hs
  have hfits := h.fits hs hshape
  have hlt : ∀ n ∈ s.order, n < g.numNodes := fun n => (hlinear.mem_iff n).1
  have hkeys : l.params.map Prod.fst = g.owners := by rw [h.params_eq, g.map_fst_slots]
  have hmem : ∀ o slot, (o, slot) ∈ l.params → (g.tensor? o).isSome = true ∧
      l.slotOf o = slot := fun o slot hp => by
    rw [h.params_eq_map] at hp
    obtain ⟨o', ho', hpair⟩ := List.mem_map.1 hp
    obtain ⟨rfl, rfl⟩ := Prod.mk.inj hpair
    exact ⟨Graph.mem_owners.1 ho', rfl⟩
  exact
    { order := (List.perm_ext_iff_of_nodup hlinear.nodup List.nodup_range).2 fun n => by
        rw [hlinear.mem_iff, ← Graph.nodeIds, Graph.mem_nodeIds]
      nodes_length := hfits.nodes_length
      node := fun n hn => by
        obtain ⟨data, -, hslot⟩ := h.getElem?_nodes hn
        refine ⟨_, hslot, rfl, rfl, ?_, ?_, fun bias => ?_⟩
        · rw [h.lookup_inputAt hs hn]
          cases g.isSource n <;> rfl
        · rw [h.lookup_targetAt hn]
          cases g.isOutput n <;> rfl
        · exact (mem_iff_lookup (hkeys ▸ g.nodup_owners)).symm
      edges_length := by rw [h.edges_eq_map, List.length_map, Graph.edgeIds, List.length_range]
      edge := fun e he =>
        ⟨_, hfits.edge e he, rfl, rfl, rfl, rfl, rfl, h.getElem?_params_weight he⟩
      data := by
        rw [h.dataLen_eq]
        refine h.consecutive_stretches hlinear.nodup hlt (List.filter_true _) fun n hn => ?_
        rw [blocksOf, h.lookup_dataAt hn, Option.getD_some]
      input := by
        rw [h.inputLen_eq]
        exact h.consecutive_stretches hlinear.nodup hlt rfl fun n hn => rfl
      target := by
        rw [h.targetLen_eq]
        exact h.consecutive_stretches List.nodup_range (fun n => g.mem_nodeIds.1) rfl
          fun n hn => rfl
      owners := hkeys.trans g.owners_eq
      flat := by
        have hflat := consecutive_slotTable ownership 0 0 g.parameters
        rwa [Nat.zero_add, ← g.slots_eq_slotTable, ← h.params_eq, ← h.paramLen_eq] at hflat
      weight_len := fun e slot hp => by
        obtain ⟨ho, rfl⟩ := hmem _ _ hp
        exact hfits.len_eq ho
      bias_len := fun n slot hp => by
        obtain ⟨ho, rfl⟩ := hmem _ _ hp
        exact hfits.len_eq ho
      placed := fun i p hp => by
        rw [h.params_eq, g.slots_eq_slotTable] at hp
        rw [h.ownership_eq]
        simpa using placed_of_getElem?_slotTable hp
      scratch := h.isGreatest_scratchLen
      optimizer := h.optimizerLen_eq
      afferents := fun n hn =>
        ⟨_, hfits.afferents n hn, List.pairwise_lt_range.filter _, fun e => g.mem_afferents⟩
      efferents := fun n hn =>
        ⟨_, hfits.efferents n hn, List.pairwise_lt_range.filter _, fun e => g.mem_efferents⟩
      position := h.getElem?_position }

end OfSchedule

/-- **A layout is exact, and its ownership says where the live values are and nothing else.**
Compilation returns layouts only in which the stretches of every region follow one another from
its first element to its last. Under the other ownership the graph compiles as well, to the same
schedule and to a layout that is the same but for the places of the live values. -/
theorem compile_lays_out_exactly {h : Host α} {store : Store α}
    (hc : compile g h ownership aux = .ok (s, l, store)) :
    g.schedule = .ok s ∧ l.Exact g s aux ∧ l.ownership = ownership ∧
      ∀ ownership', ∃ l' store', compile g h ownership' aux = .ok (s, l', store') ∧
        l'.unplaced = l.unplaced := by
  obtain ⟨hs, hshape, hstore, hl⟩ := compile_spec hc
  refine ⟨hs, hl.exact hshape, hl.ownership_eq, fun ownership' => ?_⟩
  -- both placements ask for the same: that no two parameters share their storage
  obtain ⟨store', hstore'⟩ := Store.exists_place (Store.place_spec hstore).1 ownership' h
  obtain ⟨l', hl'⟩ := exists_ofSchedule hs ownership' aux
  refine ⟨l', store', by simp only [compile, hs, hshape, hstore', hl'], ?_⟩
  exact (ofSchedule_spec hs hl').unplaced_eq hl

end Layout

/-- The weights and the biases of the graph whose ids run against its edges. -/
def Host.descent : Host ℚ :=
  ⟨#[#[1, 2, 3], #[1, 2, 3, 4, 5, 6], #[7, 8], #[9], #[1, 2, 3]]⟩

namespace Layout

theorem compile_lays_out_exactly_descent :
    ∃ l store, compile .descent .descent .reference 2 = .ok (.descent, l, store) ∧
      l.Exact .descent .descent 2 := by
  have hs := Graph.schedule_descent
  have hshape : Graph.descent.shapeFault? = none := by cbv
  have hdistinct : Store.sharedPair? (Graph.descent.parameters.map Prod.snd) = none := by rfl
  obtain ⟨store, hstore⟩ := Store.exists_place hdistinct .reference .descent
  obtain ⟨l, hl⟩ := exists_ofSchedule hs .reference 2
  have hc : compile .descent .descent .reference 2 = .ok (.descent, l, store) := by
    simp only [compile, hs, hshape, hstore, hl]
  exact ⟨l, store, hc, (compile_lays_out_exactly hc).2.1⟩

end Layout

end GraphTape
