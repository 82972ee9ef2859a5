import GraphTape.Memory.Layout
import GraphTape.Proofs.Memory.Tiling
import Mathlib.Order.Bounds.Defs
import Mathlib.Order.MinMax

/-!
# Placing the nodes

One pass over the nodes hands out stretches of several regions at once, and a second one those of
the packed targets. Seen from a single region, each pass lays the stretches end to end: a node has
the block that `packed` gives it among the nodes of that region, whatever happens elsewhere.

* `Layout.Placing.dataLen_foldl`, `inputLen_foldl`, `isGreatest_scratchLen_foldl`: the lengths of
  the regions after some nodes.
* `Layout.Placing.slots_foldl`: the slot of a node after the first pass.
* `Layout.placeTargets_eq`: the stretches of the packed targets.
* `Layout.blocksOf`: the slot of a node after both passes.
-/

namespace GraphTape.Layout

variable {α : Type} {g : Graph α} {params : List (Owner × Slot)}

namespace Placing

variable {p : Placing} {ns : List Nat}

@[simp]
theorem length_slots_add (n : Nat) : (p.add g params n).slots.length = p.slots.length :=
  List.length_set

theorem dataLen_foldl : (ns.foldl (add g params) p).dataLen =
    p.dataLen + packedLength g.width ns := by
  induction ns generalizing p with
  | nil => rfl
  | cons n ns ih => rw [List.foldl_cons, ih, add, packedLength, Nat.add_assoc]

theorem inputLen_foldl : (ns.foldl (add g params) p).inputLen =
    p.inputLen + packedLength g.width (ns.filter g.isSource) := by
  induction ns generalizing p with
  | nil => rfl
  | cons n ns ih =>
    rw [List.foldl_cons, ih, add, List.filter_cons]
    split <;> simp [packedLength, Nat.add_assoc]

/-- The scratch vector is as long as the widest node is wide, unless it was longer before. -/
theorem isGreatest_scratchLen_foldl :
    IsGreatest {w | w = p.scratchLen ∨ ∃ n ∈ ns, g.width n = w}
      (ns.foldl (add g params) p).scratchLen := by
  induction ns generalizing p with
  | nil => exact ⟨.inl rfl, fun w hw => by simpa using hw.elim Eq.le (by simp)⟩
  | cons n ns ih =>
    obtain ⟨hmem, hbound⟩ := ih (p := p.add g params n)
    have hstart : max p.scratchLen (g.width n) ≤ _ := hbound (.inl rfl)
    refine ⟨?_, ?_⟩
    · rcases hmem with hmem | ⟨m, hm, hwidth⟩
      · rcases max_choice p.scratchLen (g.width n) with hmax | hmax
        · exact .inl (hmem.trans hmax)
        · exact .inr ⟨n, List.mem_cons_self, (hmem.trans hmax).symm⟩
      · exact .inr ⟨m, List.mem_cons_of_mem n hm, hwidth⟩
    · rintro w (rfl | ⟨m, hm, rfl⟩)
      · exact (le_max_left _ _).trans hstart
      · rcases List.mem_cons.1 hm with rfl | hm
        · exact (le_max_right _ _).trans hstart
        · exact hbound (.inr ⟨m, hm, rfl⟩)

/-- A slot that is handed out is not taken back. -/
theorem slots_foldl_of_notMem {n : Nat} (hn : n ∉ ns) :
    (ns.foldl (add g params) p).slots[n]? = p.slots[n]? := by
  induction ns generalizing p with
  | nil => rfl
  | cons m ns ih =>
    rw [List.mem_cons, not_or] at hn
    rw [List.foldl_cons, ih hn.2, add, List.getElem?_set_ne (Ne.symm hn.1)]

/-- A pass over the nodes gives each of them its block of the data banks, and to a source node its
block of the packed inputs. -/
theorem slots_foldl (params : List (Owner × Slot)) (hnodup : ns.Nodup) {n : Nat} (hn : n ∈ ns)
    (hlt : n < p.slots.length) :
    ∃ data, (packed g.width p.dataLen ns).lookup n = some data ∧
      (ns.foldl (add g params) p).slots[n]? = some (some
        { id := n
          width := g.width n
          data
          input := (packed g.width p.inputLen (ns.filter g.isSource)).lookup n
          target := none
          bias := params.lookup (.bias n) }) := by
  induction ns generalizing p with
  | nil => exact absurd hn List.not_mem_nil
  | cons m ns ih =>
    rw [List.nodup_cons] at hnodup
    rw [lookup_packed_cons, List.foldl_cons, List.filter_cons]
    by_cases heq : n = m
    · subst heq
      refine ⟨p.dataLen, if_pos (beq_self_eq_true n), ?_⟩
      rw [slots_foldl_of_notMem hnodup.1, add, List.getElem?_set_self hlt]
      have hrest : n ∉ ns.filter g.isSource := fun h => hnodup.1 (List.mem_of_mem_filter h)
      split
      · rw [lookup_packed_cons, if_pos (beq_self_eq_true n)]
      · rw [Option.not_isSome_iff_eq_none.1 fun h => hrest ((isSome_lookup_packed ..).1 h)]
    · have hlt' : n < (p.add g params m).slots.length := by rwa [length_slots_add]
      obtain ⟨data, hdata, hslot⟩ := ih hnodup.2 ((List.mem_cons.1 hn).resolve_left heq) hlt'
      refine ⟨data, by rw [if_neg (by simpa using heq)]; exact hdata, hslot.trans ?_⟩
      -- a source node that comes before takes up room, any other node does not
      cases hsource : g.isSource m with
      | true => simp [add, hsource, lookup_packed_cons, heq]
      | false => simp [add, hsource]

theorem slot_eq_ok {p : Placing} {n : Nat} {slot : NodeSlot} (h : p.slots[n]? = some (some slot)) :
    (p.slot n : Except (Error α) NodeSlot) = .ok slot := by
  rw [Placing.slot, h]
  rfl

end Placing

/-- The second pass gives each output node its block of the packed targets. -/
theorem placeTargets_eq {slots : List NodeSlot} (hnodup : (slots.map NodeSlot.id).Nodup)
    (hslots : ∀ slot ∈ slots, slot.width = g.width slot.id ∧ slot.target = none) (start : Nat) :
    placeTargets g start slots =
      (slots.map fun slot => { slot with
          target := (packed g.width start ((slots.map NodeSlot.id).filter g.isOutput)).lookup
            slot.id },
        start + packedLength g.width ((slots.map NodeSlot.id).filter g.isOutput)) := by
  induction slots generalizing start with
  | nil => rfl
  | cons slot slots ih =>
    rw [List.map_cons, List.nodup_cons] at hnodup
    obtain ⟨hwidth, htarget⟩ := hslots slot List.mem_cons_self
    have hrest := ih hnodup.2 fun s hs => hslots s (List.mem_cons_of_mem slot hs)
    have hnone : ∀ start, (packed g.width start
        ((slots.map NodeSlot.id).filter g.isOutput)).lookup slot.id = none := fun start =>
      Option.not_isSome_iff_eq_none.1 fun h =>
        hnodup.1 (List.mem_of_mem_filter ((isSome_lookup_packed ..).1 h))
    have hne : ∀ s ∈ slots, (s.id == slot.id) = false := fun s hs =>
      beq_false_of_ne fun heq => hnodup.1 (heq ▸ List.mem_map_of_mem hs)
    rw [placeTargets, List.map_cons, List.map_cons, List.filter_cons, hrest, hrest]
    cases houtput : g.isOutput slot.id with
    | true =>
      simp only [if_true, hwidth, packedLength, Nat.add_assoc, lookup_packed_cons,
        beq_self_eq_true, Prod.mk.injEq, List.cons.injEq, and_true, true_and]
      exact List.map_congr_left fun s hs => by rw [hne s hs, if_neg Bool.false_ne_true]
    | false => simp [hnone, ← htarget]

/-- The slot of a node, read off the blocks of every region. -/
def blocksOf (g : Graph α) (order : List Nat) (params : List (Owner × Slot)) (n : Nat) : NodeSlot :=
  { id := n
    width := g.width n
    data := ((packed g.width 0 order).lookup n).getD 0
    input := (packed g.width 0 (order.filter g.isSource)).lookup n
    target := (packed g.width 0 g.outputs).lookup n
    bias := params.lookup (.bias n) }

/-- A pass without a failure returns what every step of it does. -/
theorem mapM_eq_ok_map {ε ι τ : Type} {f : ι → Except ε τ} {k : ι → τ} {xs : List ι}
    (h : ∀ x ∈ xs, f x = .ok (k x)) : xs.mapM f = .ok (xs.map k) := by
  induction xs with
  | nil => rfl
  | cons x xs ih =>
    rw [List.mapM_cons, h x List.mem_cons_self, ih fun y hy => h y (List.mem_cons_of_mem x hy)]
    rfl

/-- The first pass reaches every node that the order lists. -/
theorem mapM_slot_eq_ok {order : List Nat} (hnodup : order.Nodup)
    (hmem : ∀ n < g.numNodes, n ∈ order) :
    (g.nodeIds.mapM (order.foldl (Placing.add g params) (.start g.numNodes)).slot :
      Except (Error α) (List NodeSlot)) =
      .ok (g.nodeIds.map fun n => { blocksOf g order params n with target := none }) := by
  refine mapM_eq_ok_map fun n hn => ?_
  rw [Graph.mem_nodeIds] at hn
  obtain ⟨data, hdata, hslot⟩ := Placing.slots_foldl (p := .start g.numNodes) params hnodup
    (hmem n hn) (by simpa [Placing.start] using hn)
  rw [Placing.slot_eq_ok hslot, blocksOf, show (packed g.width 0 order).lookup n = some data from
    hdata, Option.getD_some]
  rfl

/-- Both passes together give a node its block of every region. -/
theorem placeTargets_nodeIds (g : Graph α) (order : List Nat) (params : List (Owner × Slot)) :
    placeTargets g 0 (g.nodeIds.map fun n => { blocksOf g order params n with target := none }) =
      (g.nodeIds.map (blocksOf g order params), packedLength g.width g.outputs) := by
  have hids : (g.nodeIds.map fun n => { blocksOf g order params n with target := none }).map
      NodeSlot.id = g.nodeIds := by
    rw [List.map_map]
    exact List.map_id _
  rw [placeTargets_eq (by rw [hids]; exact List.nodup_range) (by simp [blocksOf]), hids,
    List.map_map, Nat.zero_add]
  rfl

end GraphTape.Layout
