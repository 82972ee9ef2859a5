import GraphTape.Proofs.Optimizer.Elements

/-!
# The result of an update

An update moves every element of the parameters once, by the gradient and the optimizer state at
its place in the flat order. The slots of a compiled graph are separate, so no change of a slot sees
what an earlier one has left.

* `Rule.moved`, `Optimizer.result`: the parameters after an update, by themselves.
* `Store.Placed.separate`: the slots of a compiled graph do not meet.
* `Optimizer.Fits.step_spec`: an update of a store leaves the result.
* `Optimizer.Fits.planes_step`: what it leaves of the state.
-/

namespace GraphTape

/-- The vectors of all parameters. An owner without a parameter has the empty one. -/
abbrev Vectors (α : Type) := Owner → List α

variable {α : Type}

/-- An owner without a parameter has an empty slot. -/
theorem Layout.Fits.slotOf_of_none {g : Graph α} {l : Layout} (hl : l.Fits g) {o : Owner}
    (ho : g.tensor? o = none) : l.slotOf o = default := by
  have hlookup : l.params.lookup o = none := by
    rw [hl.params, List.lookup_eq_none_iff]
    rintro p hp
    obtain ⟨q, hq, rfl⟩ := List.mem_map.1 hp
    have hsome := Graph.mem_owners.1 hq
    rw [bne_iff_ne]
    rintro rfl
    rw [ho] at hsome
    contradiction
  rw [slotOf, hlookup, Option.getD_none]

/-- The vectors that a store holds in the slots of a layout. -/
def Store.vectors [Zero α] (st : Store α) (l : Layout) (h : Host α) : Vectors α :=
  fun o => st.read h (l.slotOf o)

/-! ## Slots of a compiled graph -/

namespace Store

variable {g : Graph α} {l : Layout} {st : Store α} {h : Host α}

/-- A buffer that has the stretch of a slot has its elements. -/
theorem Holds.stores {slot : Slot} (hh : st.Holds h slot) : st.Stores h slot := by
  obtain ⟨b, hb, hle⟩ := hh
  cases st with
  | owned buffer hosts =>
    rw [buffers, List.getElem?_singleton] at hb
    split at hb
    · obtain rfl := Option.some.inj hb
      exact ⟨.own, rfl, fun i hi => by simp [get?, show slot.offset + i < buffer.size by omega]⟩
    · contradiction
  | shared tensors =>
    rw [buffers, List.getElem?_map, Option.map_eq_some_iff] at hb
    obtain ⟨t, ht, rfl⟩ := hb
    refine ⟨.cell t.cell, by rw [home?, ht]; rfl, fun i hi => ?_⟩
    rw [Host.read, Array.getD_eq_getD_getElem?] at hle
    rw [get?]
    cases hcell : h.cells[t.cell]? with
    | none =>
      simp only [hcell, Option.getD_none, List.size_toArray, List.length_nil] at hle
      omega
    | some b =>
      simp only [hcell, Option.getD_some] at hle
      simp [show slot.offset + i < b.size by omega]

namespace Placed

/-- No element belongs to two parameters. -/
theorem not_covers (hp : st.Placed g l h) (hl : l.Fits g) {o p : Owner}
    (ho : (g.tensor? o).isSome = true) (hp' : (g.tensor? p).isSome = true) (hne : o ≠ p)
    (home : Home) (k : Nat) :
    ¬ (st.Covers (l.slotOf o) home k ∧ st.Covers (l.slotOf p) home k) := by
  rintro ⟨⟨hhome, hle, hlt⟩, hhome', hle', hlt'⟩
  obtain ⟨hbacks, -, hapart, -⟩ := hp.toServes
  cases hbacks with
  | owned _ hoffset =>
    rw [hoffset o ho] at hle hlt
    rw [hoffset p hp'] at hle' hlt'
    have := hl.flat_disjoint o p ho hp' hne
    omega
  | shared htensors =>
    obtain ⟨t, ht⟩ := Option.isSome_iff_exists.1 ho
    obtain ⟨u, hu⟩ := Option.isSome_iff_exists.1 hp'
    rw [home?, (htensors o t ht).1, Option.map_some] at hhome
    rw [home?, (htensors p u hu).1, Option.map_some, ← hhome] at hhome'
    exact hne (hapart o p t u ht hu (Home.cell.inj (Option.some.inj hhome')).symm)

/-- The slots of a layout are separate in the store of a compiled graph. -/
theorem separate [Zero α] (hp : st.Placed g l h) (hl : l.Fits g) (aux : Buffer α) :
    Update.Separate { store := st, host := h, aux } l.paramLen l.slots := by
  refine ⟨fun slot hslot => ?_, fun slot hslot => ?_, ?_⟩
  · obtain ⟨o, ho, rfl⟩ := hl.mem_slots.1 hslot
    exact (hp.holds hl ho).stores
  · obtain ⟨o, ho, rfl⟩ := hl.mem_slots.1 hslot
    exact hl.flat_le o ho
  · rw [Layout.slots, hl.params, List.map_map, List.pairwise_map]
    refine g.nodup_owners.imp_of_mem fun {o p} ho hp' hne => ?_
    rw [Graph.mem_owners] at ho hp'
    refine ⟨fun k => ?_, hp.not_covers hl ho hp' hne⟩
    have := hl.flat_disjoint o p ho hp' hne
    simp only [Function.comp_apply, Slot.Avoids]
    omega

end Placed

end Store

variable [Scalar α]

/-! ## The result -/

namespace Rule

/-- The element `w` at place `k` of the flat order after an update. -/
def moved (r : Rule α) (grads aux : Buffer α) (k : Nat) (w : α) : α :=
  match r with
  | sgd lr => w - lr * grads.getD k 0
  | adam c t =>
    let g := grads.getD k 0
    c.moved (t + 1) (c.firstMoment g (aux.getD k 0))
      (c.secondMoment g (aux.getD (grads.size + k) 0)) w

/-- An element is moved by its gradient and its state. -/
theorem moved_congr (r : Rule α) {grads grads' aux aux' : Buffer α} {k k' : Nat}
    (hgrad : grads.getD k 0 = grads'.getD k' 0)
    (hplanes : aux.planes grads.size k = aux'.planes grads'.size k') (w : α) :
    r.moved grads aux k w = r.moved grads' aux' k' w := by
  obtain ⟨hm, hv⟩ := Prod.mk.inj hplanes
  cases r <;> simp only [moved, hgrad, hm, hv]

/-- An element is moved to the value that it is advanced to, and its moments are averaged. -/
theorem advance_eq (r : Rule α) (grads aux : Buffer α) (k : Nat) (w : α) :
    r.advance (grads.getD k 0)
        ⟨w, (aux.planes grads.size k).1, (aux.planes grads.size k).2⟩ =
      ⟨r.moved grads aux k w, (r.averaged (grads.getD k 0) (aux.planes grads.size k)).1,
        (r.averaged (grads.getD k 0) (aux.planes grads.size k)).2⟩ := by
  cases r <;> rfl

end Rule

/-- All parameters after an update. -/
def Optimizer.result (o : Optimizer α) (l : Layout) (grads : Buffer α) (P : Vectors α) :
    Vectors α :=
  fun owner => (P owner).mapIdx fun i w =>
    o.rule.moved grads o.aux ((l.slotOf owner).flat + i) w

namespace Optimizer.Fits

variable {g : Graph α} {l : Layout} {o : Optimizer α} {st : Store α} {h : Host α}
  {grads : Buffer α}

/-- An update of all parameters advances every element of them. -/
theorem advanced (ho : o.Fits l) (hp : st.Placed g l h) (hl : l.Fits g)
    (hgrads : grads.size = l.paramLen) :
    Update.Advanced o.rule grads l.slots { store := st, host := h, aux := o.aux }
      (o.rule.step l.slots grads { store := st, host := h, aux := o.aux }).2 := by
  rw [Rule.snd_step]
  exact Update.Separate.foldl_change (hgrads ▸ hp.separate hl o.aux) (hgrads ▸ ho.aux)

theorem element_step (ho : o.Fits l) (hp : st.Placed g l h) (hl : l.Fits g)
    (hgrads : grads.size = l.paramLen) {p : Owner} (hsome : (g.tensor? p).isSome = true) {i : Nat}
    (hi : i < (l.slotOf p).len) :
    (o.rule.step l.slots grads { store := st, host := h, aux := o.aux }).2.element grads.size
        (l.slotOf p) i =
      o.rule.advance (grads.getD ((l.slotOf p).flat + i) 0)
        ⟨st.view h (l.slotOf p) i,
          (o.aux.planes grads.size ((l.slotOf p).flat + i)).1,
          (o.aux.planes grads.size ((l.slotOf p).flat + i)).2⟩ :=
  (ho.advanced hp hl hgrads).element_eq _ (hl.mem_slots.2 ⟨p, hsome, rfl⟩) i hi

/-- An update leaves every parameter moved by the gradients and the state from before. -/
theorem step_spec (ho : o.Fits l) (hp : st.Placed g l h) (hl : l.Fits g)
    (hgrads : grads.size = l.paramLen) :
    (o.step l.slots grads st h).2.1.vectors l (o.step l.slots grads st h).2.2 =
        o.result l grads (st.vectors l h) ∧
      (o.step l.slots grads st h).2.1.ownership = st.ownership ∧
      (o.step l.slots grads st h).2.1.Placed g l (o.step l.slots grads st h).2.2 := by
  obtain ⟨-, -, hplaced⟩ := ho.step?_eq hp hl hgrads
  refine ⟨funext fun p => ?_, ?_, hplaced⟩
  · show (o.rule.step l.slots grads _).2.store.read (o.rule.step l.slots grads _).2.host _ = _
    rw [result, Store.vectors, Store.read, Store.read]
    rcases hsome : g.tensor? p with - | t
    · rw [hl.slotOf_of_none hsome]
      rfl
    · replace hsome : (g.tensor? p).isSome = true := by rw [hsome, Option.isSome_some]
      apply List.ext_getElem (by simp)
      intro i hi hi'
      simp only [List.length_map, List.length_range] at hi
      simp only [List.getElem_map, List.getElem_range, List.getElem_mapIdx]
      have helement := ho.element_step hp hl hgrads hsome hi
      rw [Rule.advance_eq] at helement
      exact congrArg Element.value helement
  · exact Store.ownership_congr (ho.advanced hp hl hgrads).wiring_eq

/-- An update of all parameters averages in all gradients. -/
theorem planes_step (ho : o.Fits l) (hp : st.Placed g l h) (hl : l.Fits g)
    (hgrads : grads.size = l.paramLen) {k : Nat} (hk : k < l.paramLen) :
    (o.step l.slots grads st h).1.aux.planes l.paramLen k =
      o.rule.averaged (grads.getD k 0) (o.aux.planes l.paramLen k) := by
  obtain ⟨p, hsome, hstart, hend⟩ := hl.flat_cover k hk
  have helement := ho.element_step hp hl hgrads hsome (i := k - (l.slotOf p).flat) (by omega)
  rw [Rule.advance_eq, Nat.add_sub_cancel' hstart, hgrads, Update.element,
    Nat.add_sub_cancel' hstart, Element.mk.injEq] at helement
  exact Prod.ext helement.2.1 helement.2.2

end Optimizer.Fits

end GraphTape
