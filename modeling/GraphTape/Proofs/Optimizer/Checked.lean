import GraphTape.Optimizer.Update
import GraphTape.Proofs.Memory.Access

/-!
# Updates that check every access

An update as a machine has it that stops at the first slice out of range. Gradient descent takes
the slice of the gradients; Adam splits its state into two planes of one element for each gradient
first, and works on the slice of each plane. In a store that compilation has placed, with as many
gradients as there are parameter elements and a state of twice that length, no update stops.

* `Rule.step?`, `Optimizer.step?`: the checked updates.
* `Update.Ready`: what they need, and `Update.Ready.step?_eq`: that it is enough.
-/

namespace GraphTape

variable {α : Type} [Scalar α]

/-! ## The checked updates -/

/-- The update of one slot by gradient descent, on slices. -/
def descendSlot? (lr : α) (grads : Buffer α) (u : Update α) (slot : Slot) :
    Option (Update α) := do
  let g ← grads.part? slot.flat slot.len
  let (store, host) ← u.store.within? u.host slot fun w =>
    some (w.update 0 (min w.size g.size) fun i x => x - lr * g.view 0 i)
  some { u with store, host }

/-- Update `t` of the parameters in one slot, on slices of two planes. -/
def AdamConfig.updateSlot? (c : AdamConfig α) (t : Nat) (grads : Buffer α) (u : Update α)
    (slot : Slot) : Option (Update α) := do
  let g ← grads.part? slot.flat slot.len
  let aux ← u.aux.within? 0 grads.size fun plane =>
    plane.within? slot.flat slot.len fun m =>
      some (m.update 0 slot.len fun i x => c.firstMoment (g.view 0 i) x)
  let aux ← aux.within? grads.size (aux.size - grads.size) fun plane =>
    plane.within? slot.flat slot.len fun v =>
      some (v.update 0 slot.len fun i x => c.secondMoment (g.view 0 i) x)
  let first ← aux.part? 0 grads.size
  let m ← first.part? slot.flat slot.len
  let second ← aux.part? grads.size (aux.size - grads.size)
  let v ← second.part? slot.flat slot.len
  let (store, host) ← u.store.within? u.host slot fun w =>
    some (w.update 0 w.size fun i x => c.moved t (m.view 0 i) (v.view 0 i) x)
  some { store, host, aux }

/-- Updates the parameters in all slots, unless a slice is out of range. -/
def Rule.step? (r : Rule α) (slots : List Slot) (grads : Buffer α) (u : Update α) :
    Option (Rule α × Update α) :=
  match r with
  | sgd lr => do
    let u ← slots.foldlM (descendSlot? lr grads) u
    some (r, u)
  | adam config t => do
    let _ ← u.aux.part? 0 grads.size
    let u ← slots.foldlM (config.updateSlot? (t + 1) grads) u
    some (adam config (t + 1), u)

/-- One update, which asserts that there is one gradient for each parameter element. -/
def Optimizer.step? (o : Optimizer α) (slots : List Slot) (grads : Buffer α) (store : Store α)
    (host : Host α) : Option (Optimizer α × Store α × Host α) :=
  if grads.size = o.paramLen then do
    let (rule, u) ← o.rule.step? slots grads { store, host, aux := o.aux }
    some ({ o with rule, aux := u.aux, steps := o.steps + 1 }, u.store, u.host)
  else none

/-- An optimizer that is built has made no update, and its state is zero. -/
theorem Optimizer.eq_of_build {config : OptimizerConfig α} {paramLen : Nat} {o : Optimizer α}
    (hb : Optimizer.build config paramLen = .ok o) :
    o = ⟨.ofConfig config, .zeros (config.auxPerParam * paramLen), paramLen, 0⟩ := by
  rw [Optimizer.build] at hb
  split at hb
  · contradiction
  · exact (Except.ok.inj hb).symm

/-! ## Updates that do not stop -/

section Slots

variable {g : Graph α} {l : Layout} {grads : Buffer α} {u : Update α} {o : Owner}

theorem descendSlot?_eq (hl : l.Fits g) (hu : u.store.Placed g l u.host)
    (hgrads : grads.size = l.paramLen) (ho : (g.tensor? o).isSome = true) (lr : α) :
    descendSlot? lr grads u (l.slotOf o) = some (descendSlot lr grads u (l.slotOf o)) := by
  obtain ⟨q, hq, hqsize, hqview⟩ := Buffer.exists_part (hgrads.symm ▸ hl.flat_le o ho)
  rw [descendSlot?, hq, Option.bind_eq_bind, Option.bind_some,
    (hu.holds hl ho).within?_eq (f := fun i w => w - lr * grads.view (l.slotOf o).flat i)]
  · rfl
  · intro p hp
    refine ⟨fun i x => x - lr * q.view 0 i, ?_, fun i hi x => by simp only [hqview i hi]⟩
    simp only [hp, hqsize, Nat.min_self]

theorem updateSlot?_eq (hl : l.Fits g) (hu : u.store.Placed g l u.host)
    (hgrads : grads.size = l.paramLen) (haux : u.aux.size = 2 * l.paramLen)
    (ho : (g.tensor? o).isSome = true) (c : AdamConfig α) (t : Nat) :
    c.updateSlot? t grads u (l.slotOf o) = some (c.updateSlot t grads u (l.slotOf o)) := by
  have hle := hl.flat_le o ho
  have hholds := hu.holds hl ho
  generalize l.slotOf o = slot at hle hholds ⊢
  rw [← hgrads] at hle haux
  obtain ⟨q, hq, hqsize, hqview⟩ := Buffer.exists_part hle
  -- the gradients as they are read, in place of their slice
  have hfirst : Buffer.Changes slot.len
      (fun i m => c.firstMoment (grads.view slot.flat i) m)
      fun m => some (m.update 0 slot.len fun i x => c.firstMoment (q.view 0 i) x) :=
    fun p hp => ⟨_, rfl, fun i hi x => by rw [hqview i hi]⟩
  have hsecond : Buffer.Changes slot.len
      (fun i v => c.secondMoment (grads.view slot.flat i) v)
      fun v => some (v.update 0 slot.len fun i x => c.secondMoment (q.view 0 i) x) :=
    fun p hp => ⟨_, rfl, fun i hi x => by rw [hqview i hi]⟩
  simp only [AdamConfig.updateSlot?, AdamConfig.updateSlot, hq, Option.bind_eq_bind,
    Option.bind_some]
  rw [Buffer.within?_within?_eq (by omega) hle hfirst, Option.bind_some, Nat.zero_add]
  have hsize := (Buffer.size_update u.aux slot.flat slot.len fun i m =>
    c.firstMoment (grads.view slot.flat i) m).trans haux
  generalize u.aux.update slot.flat slot.len _ = aux at hsize ⊢
  rw [Buffer.within?_within?_eq (by omega) (by omega) hsecond, Option.bind_some]
  replace hsize := (Buffer.size_update aux (grads.size + slot.flat) slot.len fun i v =>
    c.secondMoment (grads.view slot.flat i) v).trans hsize
  generalize aux.update (grads.size + slot.flat) slot.len _ = aux at hsize ⊢
  obtain ⟨first, m, hplane, hm, -, hmview⟩ :=
    Buffer.exists_part_of_part (show 0 + grads.size ≤ aux.size by omega) hle
  obtain ⟨second, v, hplane', hv, -, hvview⟩ :=
    Buffer.exists_part_of_part (show grads.size + (aux.size - grads.size) ≤ aux.size by omega)
      (show slot.flat + slot.len ≤ aux.size - grads.size by omega)
  rw [Nat.zero_add] at hmview
  rw [hplane, Option.bind_some, hm, Option.bind_some, hplane', Option.bind_some, hv,
    Option.bind_some, hholds.within?_eq (f := fun i w =>
      c.moved t (aux.view slot.flat i) (aux.view (grads.size + slot.flat) i) w)]
  · rfl
  · intro p hp
    refine ⟨fun i x => c.moved t (m.view 0 i) (v.view 0 i) x, by simp only [hp],
      fun i hi x => ?_⟩
    simp only [hmview i hi, hvview i hi]

end Slots

/-- An update has a placed store to work on, and as much state as its rule asks for. -/
structure Update.Ready (g : Graph α) (l : Layout) (r : Rule α) (u : Update α) : Prop where
  placed : u.store.Placed g l u.host
  aux : u.aux.size = r.auxPerParam * l.paramLen

/-- The state of an optimizer is as long as its rule asks for. -/
structure Optimizer.Fits (o : Optimizer α) (l : Layout) : Prop where
  paramLen : o.paramLen = l.paramLen
  aux : o.aux.size = o.rule.auxPerParam * l.paramLen

section Step

variable {g : Graph α} {l : Layout} {grads : Buffer α} {u : Update α}

/-- An update of all parameters does not stop. -/
theorem Update.Ready.step?_eq {r : Rule α} (hu : u.Ready g l r) (hl : l.Fits g)
    (hgrads : grads.size = l.paramLen) :
    r.step? l.slots grads u = some (r.step l.slots grads u) ∧
      (r.step l.slots grads u).2.Ready g l (r.step l.slots grads u).1 := by
  cases r with
  | sgd lr =>
    have hslot : ∀ slot ∈ l.slots, ∀ u : Update α, u.Ready g l (.sgd lr) →
        descendSlot? lr grads u slot = some (descendSlot lr grads u slot) ∧
          (descendSlot lr grads u slot).Ready g l (.sgd lr) := by
      intro slot hslot u hu
      obtain ⟨o, ho, rfl⟩ := hl.mem_slots.1 hslot
      exact ⟨descendSlot?_eq hl hu.placed hgrads ho lr, hu.placed.update hl ho _, hu.aux⟩
    obtain ⟨hfold, hready⟩ := foldlM_eq_some hslot hu
    exact ⟨by rw [Rule.step?, hfold]; rfl, hready⟩
  | adam config t =>
    have haux : ∀ {u : Update α} {t : Nat}, u.Ready g l (.adam config t) →
        u.aux.size = 2 * l.paramLen := fun hu => hu.aux
    have hslot : ∀ slot ∈ l.slots, ∀ u : Update α, u.Ready g l (.adam config (t + 1)) →
        config.updateSlot? (t + 1) grads u slot = some (config.updateSlot (t + 1) grads u slot) ∧
          (config.updateSlot (t + 1) grads u slot).Ready g l (.adam config (t + 1)) := by
      intro slot hslot u hu
      obtain ⟨o, ho, rfl⟩ := hl.mem_slots.1 hslot
      refine ⟨updateSlot?_eq hl hu.placed hgrads (haux hu) ho config (t + 1),
        hu.placed.update hl ho _, ?_⟩
      exact (Buffer.size_update ..).trans ((Buffer.size_update ..).trans hu.aux)
    have hstart : u.Ready g l (.adam config (t + 1)) := ⟨hu.placed, hu.aux⟩
    obtain ⟨hfold, hready⟩ := foldlM_eq_some hslot hstart
    obtain ⟨plane, hplane, -⟩ := Buffer.exists_part (show 0 + grads.size ≤ u.aux.size by
      rw [haux hu]
      omega)
    exact ⟨by rw [Rule.step?, hplane, hfold]; rfl, hready⟩

theorem Optimizer.Fits.step?_eq {o : Optimizer α} {st : Store α} {h : Host α} (ho : o.Fits l)
    (hp : st.Placed g l h) (hl : l.Fits g) (hgrads : grads.size = l.paramLen) :
    o.step? l.slots grads st h = some (o.step l.slots grads st h) ∧
      (o.step l.slots grads st h).1.Fits l ∧
      (o.step l.slots grads st h).2.1.Placed g l (o.step l.slots grads st h).2.2 := by
  have hready : Update.Ready g l o.rule { store := st, host := h, aux := o.aux } := ⟨hp, ho.aux⟩
  obtain ⟨hstep, hnext⟩ := hready.step?_eq hl hgrads
  refine ⟨?_, ⟨ho.paramLen, hnext.aux⟩, hnext.placed⟩
  rw [Optimizer.step?, if_pos (hgrads.trans ho.paramLen.symm), hstep]
  rfl

end Step

end GraphTape
