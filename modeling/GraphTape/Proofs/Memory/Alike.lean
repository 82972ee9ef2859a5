import GraphTape.Proofs.Graph.Alike
import GraphTape.Proofs.Memory.Store

/-!
# Layouts of alike graphs

Two graphs on host tensors that are equal but for the cells they live in compile to layouts with
the same flat offsets, or fail with the same error, under any two ownerships.

* `Concur`: two computations that fail alike or return related values.
* `Graph.Twins`: graphs with host tensors of equal shapes, elements and sharing.
* `Graph.Twins.concur_compile`, `Layout.OfSchedule.flat_eq`: their layouts.
-/

namespace GraphTape

/-- Two computations fail with the same error, or return values that `R` relates. -/
inductive Concur {ε β γ : Type} (R : β → γ → Prop) : Except ε β → Except ε γ → Prop
  | error (e : ε) : Concur R (.error e) (.error e)
  | ok {b : β} {c : γ} (h : R b c) : Concur R (.ok b) (.ok c)

namespace Concur

variable {ε β γ : Type} {R : β → γ → Prop}

theorem mono {S : β → γ → Prop} {x : Except ε β} {y : Except ε γ} (h : Concur R x y)
    (hRS : ∀ b c, x = .ok b → y = .ok c → R b c → S b c) : Concur S x y := by
  cases h with
  | error e => exact .error e
  | ok h => exact .ok (hRS _ _ rfl rfl h)

end Concur

variable {α : Type}

/-! ## Owners -/

/-- The tensor of an owner that has one. -/
def Graph.tensorOf (g : Graph α) (o : Owner) : Tensor := (g.tensor? o).getD default

theorem Graph.tensor?_eq_of_mem_owners {g : Graph α} {o : Owner} (ho : o ∈ g.owners) :
    g.tensor? o = some (g.tensorOf o) := by
  obtain ⟨t, ht⟩ := Option.isSome_iff_exists.1 (mem_owners.1 ho)
  rw [tensorOf, ht, Option.getD_some]

theorem Graph.parameters_eq_map (g : Graph α) :
    g.parameters = g.owners.map fun o => (o, g.tensorOf o) := by
  have hlookup : ∀ o, (g.parameters.lookup o).getD default = g.tensorOf o := fun o => by
    rw [g.lookup_parameters, tensorOf]
  simp only [← hlookup]
  exact eq_map_lookup g.nodup_owners default

/-- Alike graphs have their parameters in the same order. -/
theorem Graph.Alike.owners_eq {g g' : Graph α} (h : g.Alike g') : g.owners = g'.owners := by
  have houtline : ∀ g : Graph α, g.owners =
      ((g.edges.map Edge.outline).toList.zipIdx.map fun x => Owner.weight x.2) ++
        (g.nodes.map Node.outline).toList.zipIdx.filterMap fun x =>
          x.1.2.2.2.2.map fun _ => Owner.bias x.2 := by
    intro g
    have hbias : ∀ x : Node α × Nat, (x.1.bias.map fun t => (Owner.bias x.2, t)).map Prod.fst =
        (x.1.bias.map Tensor.shape).map fun _ => Owner.bias x.2 := fun x => by
      rw [Option.map_map, Option.map_map]
      rfl
    simp only [owners, parameters, weights, biases, List.map_append, List.map_map,
      List.map_filterMap, Array.toList_map, List.zipIdx_map, List.filterMap_map, hbias]
    rfl
  rw [houtline g, houtline g', h.nodes, h.edges]

theorem Graph.Alike.count_eq {g g' : Graph α} (h : g.Alike g') {o : Owner} (ho : o ∈ g.owners) :
    (g.tensorOf o).count = (g'.tensorOf o).count := by
  have hshape := h.shape_eq o
  rw [tensor?_eq_of_mem_owners ho, tensor?_eq_of_mem_owners (h.owners_eq ▸ ho)] at hshape
  exact congrArg Shape.count (Option.some.inj hshape)

/-! ## Flat offsets -/

section SlotTable

variable {os : List Owner} {t t' : Owner → Tensor}

/-- The flat offset of a slot depends on the owners and on how long their tensors are. -/
theorem lookup_slotTable_flat (h : ∀ o ∈ os, (t o).count = (t' o).count)
    (ownership ownership' : Ownership) (i i' flat : Nat) (o : Owner) :
    ((slotTable ownership i flat (os.map fun o => (o, t o))).lookup o).map Slot.flat =
      ((slotTable ownership' i' flat (os.map fun o => (o, t' o))).lookup o).map Slot.flat := by
  induction os generalizing i i' flat with
  | nil => rfl
  | cons p os ih =>
    rw [List.map_cons, List.map_cons, lookup_slotTable_cons, lookup_slotTable_cons]
    split
    · rw [Option.map_some, Option.map_some, alignedSlot_flat, alignedSlot_flat]
    · rw [h p List.mem_cons_self]
      exact ih (fun o ho => h o (List.mem_cons_of_mem p ho)) ..

theorem totalCount_eq (h : ∀ o ∈ os, (t o).count = (t' o).count) :
    totalCount (os.map fun o => (o, t o)) = totalCount (os.map fun o => (o, t' o)) := by
  induction os with
  | nil => rfl
  | cons p os ih =>
    rw [List.map_cons, List.map_cons, totalCount, totalCount, packedLength, packedLength,
      h p List.mem_cons_self]
    exact congrArg _ (ih fun o ho => h o (List.mem_cons_of_mem p ho))

end SlotTable

namespace Layout.OfSchedule

variable {g g' : Graph α} {s s' : Schedule} {ownership ownership' : Ownership} {aux aux' : Nat}
  {l l' : Layout}

/-- The parameters of alike graphs have the same places in the flat vector. -/
theorem flat_eq (hl : OfSchedule g s ownership aux l) (hl' : OfSchedule g' s' ownership' aux' l')
    (h : g.Alike g') {o : Owner} (ho : o ∈ g.owners) :
    (l.slotOf o).flat = (l'.slotOf o).flat := by
  have hflat := lookup_slotTable_flat (fun o => h.count_eq) ownership ownership' 0 0 0 o
  rw [← g.parameters_eq_map, h.owners_eq, ← g'.parameters_eq_map, ← g.slots_eq_slotTable,
    ← g'.slots_eq_slotTable, ← hl.params_eq, ← hl'.params_eq,
    (hl.lookup_slotOf (Graph.tensor?_eq_of_mem_owners ho)).1,
    (hl'.lookup_slotOf (Graph.tensor?_eq_of_mem_owners (h.owners_eq ▸ ho))).1] at hflat
  exact Option.some.inj hflat

theorem paramLen_congr (hl : OfSchedule g s ownership aux l)
    (hl' : OfSchedule g' s' ownership' aux' l') (h : g.Alike g') : l.paramLen = l'.paramLen := by
  rw [hl.paramLen_eq, hl'.paramLen_eq, g.parameters_eq_map, g'.parameters_eq_map, ← h.owners_eq]
  exact totalCount_eq fun o => h.count_eq

end Layout.OfSchedule

/-! ## Compilation -/

/-- Two graphs on hosts that are equal but for the cells of their tensors: the tensors of an owner
have equal shapes and elements, and two owners share their storage in both graphs or in none. -/
structure Graph.Twins (g : Graph α) (h : Host α) (g' : Graph α) (h' : Host α) : Prop where
  alike : g.Alike g'
  hosted : g.HostedBy h
  hosted' : g'.HostedBy h'
  read_eq : ∀ o t t', g.tensor? o = some t → g'.tensor? o = some t' → h.read t = h'.read t'
  shared_iff : ∀ o p t u t' u', g.tensor? o = some t → g.tensor? p = some u →
    g'.tensor? o = some t' → g'.tensor? p = some u' → (t.sameStorage u ↔ t'.sameStorage u')

namespace Store

theorem findSome?_congr {ι τ : Type} {f f' : ι → Option τ} {xs : List ι}
    (h : ∀ x ∈ xs, f x = f' x) : xs.findSome? f = xs.findSome? f' := by
  induction xs with
  | nil => rfl
  | cons x xs ih =>
    rw [List.findSome?_cons, List.findSome?_cons, h x List.mem_cons_self,
      ih fun y hy => h y (List.mem_cons_of_mem x hy)]

theorem findIdx?_congr {ι : Type} {p p' : ι → Bool} {xs : List ι} (h : ∀ x ∈ xs, p x = p' x) :
    xs.findIdx? p = xs.findIdx? p' := by
  induction xs with
  | nil => rfl
  | cons x xs ih =>
    rw [List.findIdx?_cons, List.findIdx?_cons, h x List.mem_cons_self,
      ih fun y hy => h y (List.mem_cons_of_mem x hy)]

/-- Whether and where tensors share their storage depends on which pairs of them do. -/
theorem sharedPair?_congr {os : List Owner} {t t' : Owner → Tensor}
    (h : ∀ o ∈ os, ∀ p ∈ os, (t o).sameStorage (t p) = (t' o).sameStorage (t' p)) :
    sharedPair? (os.map t) = sharedPair? (os.map t') := by
  have htwin : ∀ x ∈ os.zipIdx, twin? (os.map t) x.2 (t x.1) = twin? (os.map t') x.2 (t' x.1) := by
    intro x hx
    have hmem := List.fst_mem_of_mem_zipIdx hx
    rw [twin?, twin?, ← List.map_take, ← List.map_take, List.findIdx?_map, List.findIdx?_map]
    refine findIdx?_congr fun o ho => ?_
    exact h o (List.mem_of_mem_take ho) x.1 hmem
  rw [sharedPair?, sharedPair?, List.zipIdx_map, List.zipIdx_map, List.findSome?_map,
    List.findSome?_map]
  refine findSome?_congr fun x hx => ?_
  exact congrArg (Option.map fun first => (first, x.2)) (htwin x hx)

end Store

/-- Twins can both be laid out, by the same schedule, or neither can, for the same reason. -/
theorem Graph.Twins.concur_compile {g g' : Graph α} {h h' : Host α} (ht : g.Twins h g' h')
    (ownership ownership' : Ownership) (aux : Nat) :
    Concur (fun x x' => x.1 = x'.1) (Layout.compile g h ownership aux)
      (Layout.compile g' h' ownership' aux) := by
  have hpair : Store.sharedPair? (g.parameters.map Prod.snd) =
      Store.sharedPair? (g'.parameters.map Prod.snd) := by
    rw [g.parameters_eq_map, g'.parameters_eq_map, List.map_map, List.map_map,
      ← ht.alike.owners_eq]
    refine Store.sharedPair?_congr fun o ho p hp => Bool.eq_iff_iff.2 ?_
    have ho' := ht.alike.owners_eq ▸ ho
    have hp' := ht.alike.owners_eq ▸ hp
    exact ht.shared_iff o p _ _ _ _ (tensor?_eq_of_mem_owners ho) (tensor?_eq_of_mem_owners hp)
      (tensor?_eq_of_mem_owners ho') (tensor?_eq_of_mem_owners hp')
  have hplace : Concur (fun _ _ => True)
      (Store.place ownership h (g.parameters.map Prod.snd))
      (Store.place ownership' h' (g'.parameters.map Prod.snd)) := by
    unfold Store.place
    rw [← hpair]
    split
    · exact .error _
    · cases ownership <;> cases ownership' <;> exact .ok trivial
  rw [Layout.compile, Layout.compile, ← ht.alike.schedule_eq, ← ht.alike.shapeFault?_eq]
  cases hs : g.schedule with
  | error e => exact .error e
  | ok s =>
    cases g.shapeFault? with
    | some fault => exact .error fault
    | none =>
      generalize Store.place ownership h _ = placed at hplace ⊢
      generalize Store.place ownership' h' _ = placed' at hplace ⊢
      cases hplace with
      | error e => exact .error e
      | ok _ =>
        obtain ⟨l, hl⟩ := Layout.exists_ofSchedule hs ownership aux
        obtain ⟨l', hl'⟩ := Layout.exists_ofSchedule (ht.alike.schedule_eq ▸ hs) ownership' aux
        simp only [hl, hl']
        exact .ok rfl

end GraphTape
