import GraphTape.Proofs.Optimizer.Step
import GraphTape.Proofs.Scalar.Exact

/-!
# Runs of an optimizer

A run makes one update after the other, each with gradients of its own and for some of the slots.
An element follows a recurrence that reads nothing but its own value and moments, the gradients at
its own place and the number of updates made so far; an update that does not list the slot of the
element passes it by. Neither the order in which an update lists the slots nor the kind of the store
can be seen in what a run leaves.

* `Rule.course`: the recurrence of one element over a run.
* `Tuning.run`: a run, next to the store and the host that it updates, and `Tuning.after`: the start
  of a run without end.
* `Tuning.Ready.of_placed`: compiled graphs.
* `Tuning.Ready.element_run`, `Tuning.Ready.get?_run`, `Tuning.Ready.planes_run`: what it leaves.
* `Tuning.Ready.run_eq`, `Tuning.Ready.read_run`: runs in another order, and of another store.
-/

namespace GraphTape

variable {α : Type} [Scalar α]

/-- An element over a run, given its gradient in each update that lists its slot. -/
def Rule.course : Rule α → List (Option α) → Element α → Element α
  | _, [], x => x
  | r, none :: grads, x => r.next.course grads x
  | r, some grad :: grads, x => r.next.course grads (r.advance grad x)

theorem Rule.course_cons (r : Rule α) (grad : Option α) (grads : List (Option α)) (x : Element α) :
    r.course (grad :: grads) x = r.next.course grads (r.course [grad] x) := by
  cases grad <;> rfl

/-- An optimizer next to the store and the host that it updates. -/
structure Tuning (α : Type) where
  optimizer : Optimizer α
  store : Store α
  host : Host α

namespace Tuning

/-- What an update is called with: which of `n` slots to update, in which order, and the gradients
of `size` parameter elements. -/
structure Call (α : Type) (n size : Nat) where
  listed : List (Fin n)
  grads : Buffer α
  nodup : listed.Nodup
  size_eq : grads.size = size

variable {n size : Nat}

/-- The gradient of element `i` of a slot, if the slot is listed. -/
def Call.gradient? (c : Call α n size) (slots : Fin n → Slot) (j : Fin n) (i : Nat) : Option α :=
  if j ∈ c.listed then some (c.grads.getD ((slots j).flat + i) 0) else none

/-- The same update, with the slots listed in another order. -/
structure Call.Reorders (c c' : Call α n size) : Prop where
  listed : c'.listed.Perm c.listed
  grads : c'.grads = c.grads

/-- One update. -/
def call (slots : Fin n → Slot) (x : Tuning α) (c : Call α n size) : Tuning α :=
  let (optimizer, store, host) := x.optimizer.step (c.listed.map slots) c.grads x.store x.host
  { optimizer, store, host }

/-- One update after the other. -/
def run (slots : Fin n → Slot) (x : Tuning α) (calls : List (Call α n size)) : Tuning α :=
  calls.foldl (call slots) x

/-- After the first `t` updates of a run without end. -/
def after (slots : Fin n → Slot) (x : Tuning α) (calls : Nat → Call α n size) (t : Nat) :
    Tuning α :=
  x.run slots ((List.range t).map calls)

/-- What an update works on. -/
def update (x : Tuning α) : Update α := { store := x.store, host := x.host, aux := x.optimizer.aux }

/-- The slots exist, their places in the flat order are below `size`, no two of them meet in either,
and the state of the optimizer is as long as its rule asks for. -/
structure Ready (x : Tuning α) (size : Nat) (slots : Fin n → Slot) : Prop where
  aux : x.optimizer.aux.size = x.optimizer.rule.auxPerParam * size
  stores : ∀ j, x.store.Stores x.host (slots j)
  flat_le : ∀ j, (slots j).flat + (slots j).len ≤ size
  flat_apart : ∀ i j, i ≠ j → ∀ k, (slots i).Avoids k ∨ (slots j).Avoids k
  apart : ∀ i j, i ≠ j → ∀ home k,
    ¬ (x.store.Covers (slots i) home k ∧ x.store.Covers (slots j) home k)

variable {slots slots' : Fin n → Slot} {x x' : Tuning α} {c c' : Call α n size}
  {calls calls' : List (Call α n size)}

/-! ## One update -/

theorem call_eq (slots : Fin n → Slot) (x : Tuning α) (c : Call α n size) :
    x.call slots c =
      { optimizer :=
          { x.optimizer with
            rule := x.optimizer.rule.next
            aux := (x.call slots c).update.aux
            steps := x.optimizer.steps + 1 }
        store := (x.call slots c).update.store
        host := (x.call slots c).update.host } := by
  rw [← Rule.fst_step]
  rfl

theorem rule_call (slots : Fin n → Slot) (x : Tuning α) (c : Call α n size) :
    (x.call slots c).optimizer.rule = x.optimizer.rule.next :=
  Rule.fst_step ..

theorem after_succ (slots : Fin n → Slot) (x : Tuning α) (calls : Nat → Call α n size) (t : Nat) :
    x.after slots calls (t + 1) = (x.after slots calls t).call slots (calls t) := by
  rw [after, run, List.range_succ, List.map_append, List.foldl_append]
  rfl

namespace Ready

/-- The store of a compiled graph, with the slots of its layout and an optimizer that fits. -/
theorem of_placed {g : Graph α} {l : Layout} (hl : l.Fits g) (ho : x.optimizer.Fits l)
    (hp : x.store.Placed g l x.host) : x.Ready l.paramLen l.slots.get := by
  obtain ⟨hstores, hle, hapart⟩ := hp.separate hl x.optimizer.aux
  rw [List.pairwise_iff_get] at hapart
  have hpair : ∀ i j : Fin l.slots.length, i ≠ j →
      (∀ k, (l.slots.get i).Avoids k ∨ (l.slots.get j).Avoids k) ∧
        ∀ home k, ¬ (x.store.Covers (l.slots.get i) home k ∧
          x.store.Covers (l.slots.get j) home k) := by
    intro i j hne
    rcases Nat.lt_or_gt_of_ne (Fin.val_ne_of_ne hne) with hlt | hlt
    · exact hapart i j hlt
    · obtain ⟨hflat, hhome⟩ := hapart j i hlt
      exact ⟨fun k => (hflat k).symm, fun home k hboth => hhome home k hboth.symm⟩
  exact ⟨ho.aux, fun j => hstores _ (l.slots.get_mem j), fun j => hle _ (l.slots.get_mem j),
    fun i j hne => (hpair i j hne).1, fun i j hne => (hpair i j hne).2⟩

omit [Scalar α] in
theorem separate (hx : x.Ready size slots) {listed : List (Fin n)} (hnodup : listed.Nodup) :
    x.update.Separate size (listed.map slots) := by
  refine ⟨?_, ?_, ?_⟩
  · intro slot hslot
    obtain ⟨j, -, rfl⟩ := List.mem_map.1 hslot
    exact hx.stores j
  · intro slot hslot
    obtain ⟨j, -, rfl⟩ := List.mem_map.1 hslot
    exact hx.flat_le j
  · rw [List.pairwise_map]
    exact hnodup.imp fun {i j} hne => ⟨hx.flat_apart i j hne, hx.apart i j hne⟩

/-- An update advances the elements of the slots that it lists. -/
theorem advanced (hx : x.Ready size slots) (c : Call α n size) :
    x.update.Advanced x.optimizer.rule c.grads (c.listed.map slots) (x.call slots c).update := by
  obtain ⟨listed, grads, hnodup, rfl⟩ := c
  have hstep := (hx.separate hnodup).foldl_change (r := x.optimizer.rule) hx.aux
  rwa [← Rule.snd_step] at hstep

theorem call (hx : x.Ready size slots) (c : Call α n size) :
    (x.call slots c).Ready size slots := by
  have hstep := hx.advanced c
  have hcovers : ∀ {slot home k}, (x.call slots c).store.Covers slot home k ↔
      x.store.Covers slot home k := Store.covers_congr hstep.wiring_eq
  refine ⟨?_, fun j => ?_, hx.flat_le, hx.flat_apart, fun i j hne home k hboth => ?_⟩
  · have hsize := hstep.size_eq.trans hx.aux
    rw [rule_call]
    cases hr : x.optimizer.rule <;> rw [hr] at hsize <;> exact hsize
  · exact Update.stores_congr hstep.wiring_eq hstep.isSome_eq (hx.stores j)
  · exact hx.apart i j hne home k ⟨hcovers.1 hboth.1, hcovers.1 hboth.2⟩

/-- An element after an update: advanced if its slot is listed, and else as it was. -/
theorem element_call (hx : x.Ready size slots) (c : Call α n size) (j : Fin n) {i : Nat}
    (hi : i < (slots j).len) :
    (x.call slots c).update.element size (slots j) i =
      x.optimizer.rule.course [c.gradient? slots j i] (x.update.element size (slots j) i) := by
  have hstep := hx.advanced c
  obtain ⟨listed, grads, hnodup, rfl⟩ := c
  rw [Call.gradient?]
  split
  · rename_i hj
    exact hstep.element_eq (slots j) (List.mem_map_of_mem hj) i hi
  · rename_i hj
    refine hstep.element_of_apart (hx.stores j) (hx.flat_le j) (fun s hs => ?_) hi
    obtain ⟨m, hm, rfl⟩ := List.mem_map.1 hs
    have hne : m ≠ j := fun heq => hj (heq ▸ hm)
    exact ⟨hx.flat_apart m j hne, hx.apart m j hne⟩

/-- Updates that list the same slots leave the same. -/
theorem call_eq_of_reorders (hx : x.Ready size slots) (hc : c.Reorders c') :
    x.call slots c' = x.call slots c := by
  have hsame : (x.call slots c').update = (x.call slots c).update := by
    refine (hx.advanced c).unique (hc.grads ▸ hx.advanced c')
      (fun slot => (hc.listed.map slots).mem_iff) ?_
    exact c.size_eq.symm ▸ hx.aux
  rw [call_eq, hsame, ← call_eq]

/-- What an update leaves of the optimizer does not depend on where the slots are stored. -/
theorem optimizer_call (ho : x'.optimizer = x.optimizer)
    (hslots : ∀ j, (slots' j).flat = (slots j).flat ∧ (slots' j).len = (slots j).len)
    (c : Call α n size) : (x'.call slots' c).optimizer = (x.call slots c).optimizer := by
  have haux : ∀ (listed : List (Fin n)) {u u' : Update α}, u'.aux = u.aux →
      ((listed.map slots').foldl (x.optimizer.rule.change c.grads) u').aux =
        ((listed.map slots).foldl (x.optimizer.rule.change c.grads) u).aux := by
    intro listed
    induction listed with
    | nil => exact id
    | cons j listed ih =>
      intro u u' hu
      refine ih ?_
      cases x.optimizer.rule with
      | sgd => exact hu
      | adam => simp only [Rule.change, AdamConfig.updateSlot, hu, hslots j]
  have hstate : (x'.call slots' c).update.aux = (x.call slots c).update.aux := by
    show (x'.optimizer.rule.step (c.listed.map slots') c.grads x'.update).2.aux =
      (x.optimizer.rule.step (c.listed.map slots) c.grads x.update).2.aux
    rw [ho, Rule.snd_step, Rule.snd_step]
    exact haux c.listed (congrArg Optimizer.aux ho)
  rw [call_eq slots', call_eq slots, ho, hstate]

/-! ## One update after the other -/

theorem run (hx : x.Ready size slots) (calls : List (Call α n size)) :
    (x.run slots calls).Ready size slots := by
  induction calls generalizing x with
  | nil => exact hx
  | cons c calls ih => exact ih (hx.call c)

/-- Every element runs its course. -/
theorem element_run (hx : x.Ready size slots) (calls : List (Call α n size)) (j : Fin n) {i : Nat}
    (hi : i < (slots j).len) :
    (x.run slots calls).update.element size (slots j) i =
      x.optimizer.rule.course (calls.map fun c => c.gradient? slots j i)
        (x.update.element size (slots j) i) := by
  induction calls generalizing x with
  | nil => rfl
  | cons c calls ih =>
    rw [List.map_cons, Rule.course_cons, ← hx.element_call c j hi, ← rule_call slots x c]
    exact ih (hx.call c)

/-- An element that no listed slot covers stays as it is. -/
theorem get?_run (hx : x.Ready size slots) {home : Store.Home} {k : Nat}
    (hk : ∀ c ∈ calls, ∀ j ∈ c.listed, ¬ x.store.Covers (slots j) home k) :
    (x.run slots calls).update.get? home k = x.update.get? home k := by
  induction calls generalizing x with
  | nil => rfl
  | cons c calls ih =>
    rw [List.forall_mem_cons] at hk
    have hstep := hx.advanced c
    have hlater := ih (hx.call c) fun d hd j hj hcovers =>
      hk.2 d hd j hj ((Store.covers_congr hstep.wiring_eq).1 hcovers)
    refine hlater.trans (hstep.get?_eq home k fun slot hslot => ?_)
    obtain ⟨j, hj, rfl⟩ := List.mem_map.1 hslot
    exact hk.1 j hj

/-- The moments at a place that no listed slot has stay as they are. -/
theorem planes_run (hx : x.Ready size slots) {k : Nat} (hsize : k < size)
    (hk : ∀ c ∈ calls, ∀ j ∈ c.listed, (slots j).Avoids k) :
    (x.run slots calls).optimizer.aux.planes size k = x.optimizer.aux.planes size k := by
  induction calls generalizing x with
  | nil => rfl
  | cons c calls ih =>
    rw [List.forall_mem_cons] at hk
    refine (ih (hx.call c) hk.2).trans ?_
    have hstep := hx.advanced c
    obtain ⟨listed, grads, hnodup, rfl⟩ := c
    refine hstep.planes_eq k hsize fun slot hslot => ?_
    obtain ⟨j, hj, rfl⟩ := List.mem_map.1 hslot
    exact hk.1 j hj

/-- Runs that list the same slots in other orders leave the same. -/
theorem run_eq (hx : x.Ready size slots) (hcalls : List.Forall₂ Call.Reorders calls calls') :
    x.run slots calls' = x.run slots calls := by
  induction hcalls generalizing x with
  | nil => rfl
  | @cons c c' calls calls' hcall _ ih =>
    show (x.call slots c').run slots calls' = (x.call slots c).run slots calls
    rw [hx.call_eq_of_reorders hcall]
    exact ih (hx.call c)

theorem optimizer_run (ho : x'.optimizer = x.optimizer)
    (hslots : ∀ j, (slots' j).flat = (slots j).flat ∧ (slots' j).len = (slots j).len)
    (calls : List (Call α n size)) :
    (x'.run slots' calls).optimizer = (x.run slots calls).optimizer := by
  induction calls generalizing x x' with
  | nil => exact ho
  | cons c calls ih => exact ih (optimizer_call ho hslots c)

/-- Runs of two stores with the same values leave the same values. -/
theorem read_run (hx : x.Ready size slots) (hx' : x'.Ready size slots')
    (ho : x'.optimizer = x.optimizer)
    (hslots : ∀ j, (slots' j).flat = (slots j).flat ∧ (slots' j).len = (slots j).len)
    {j : Fin n} (hread : x'.store.read x'.host (slots' j) = x.store.read x.host (slots j))
    (calls : List (Call α n size)) :
    (x'.run slots' calls).store.read (x'.run slots' calls).host (slots' j) =
      (x.run slots calls).store.read (x.run slots calls).host (slots j) := by
  obtain ⟨hflat, hlen⟩ := hslots j
  rw [Store.read, Store.read, hlen, List.map_inj_left] at hread ⊢
  intro i hi
  have hlt := List.mem_range.1 hi
  have hstart : x'.update.element size (slots' j) i = x.update.element size (slots j) i := by
    refine Element.ext (hread i hi) ?_ ?_ <;>
      simp only [Update.element, Tuning.update, ho, hflat]
  have hgrads : (calls.map fun c => c.gradient? slots' j i) =
      calls.map fun c => c.gradient? slots j i := by
    simp only [Call.gradient?, hflat]
  have hcourse := (hx'.element_run calls j (hlen.symm ▸ hlt)).trans
    (hgrads ▸ ho ▸ hstart ▸ (hx.element_run calls j hlt).symm)
  exact congrArg Element.value hcourse

end Ready

/-- A run counts its updates. -/
theorem steps_run (slots : Fin n → Slot) (x : Tuning α) (calls : List (Call α n size)) :
    (x.run slots calls).optimizer.steps = x.optimizer.steps + calls.length ∧
      (x.run slots calls).optimizer.rule.count? =
        x.optimizer.rule.count?.map (· + calls.length) := by
  induction calls generalizing x with
  | nil =>
    cases hr : x.optimizer.rule.count? <;> simp [run, hr]
  | cons c calls ih =>
    obtain ⟨hsteps, hcount⟩ := ih (x.call slots c)
    have hone : (x.call slots c).optimizer.steps = x.optimizer.steps + 1 := rfl
    rw [run, List.foldl_cons, ← run, hsteps, hcount, rule_call, List.length_cons]
    refine ⟨by omega, ?_⟩
    cases x.optimizer.rule with
    | sgd => rfl
    | adam config t =>
      exact congrArg some (show t + 1 + calls.length = t + (calls.length + 1) by omega)

/-- **A run is a recurrence for each element.** An element of a listed slot follows its course: it
is advanced once by every update that lists the slot, by its own gradient, its own moments and the
number of updates so far. Elements that no listed slot covers, wherever they are stored, and moments
at places that no listed slot has, stay as they are. Every update counts, and of a rule that counts
its updates the number is that of the steps. Neither the order in which an update lists its slots
nor the place where the slots are stored makes a difference to what a run leaves. -/
theorem runs_follow_recurrences (hx : x.Ready size slots) (calls : List (Call α n size)) :
    (x.run slots calls).Ready size slots ∧
    (∀ j, ∀ i < (slots j).len, (x.run slots calls).update.element size (slots j) i =
      x.optimizer.rule.course (calls.map fun c => c.gradient? slots j i)
        (x.update.element size (slots j) i)) ∧
    (∀ home k, (∀ c ∈ calls, ∀ j ∈ c.listed, ¬ x.store.Covers (slots j) home k) →
      (x.run slots calls).update.get? home k = x.update.get? home k) ∧
    (∀ k < size, (∀ c ∈ calls, ∀ j ∈ c.listed, (slots j).Avoids k) →
      (x.run slots calls).optimizer.aux.planes size k = x.optimizer.aux.planes size k) ∧
    ((x.run slots calls).optimizer.steps = x.optimizer.steps + calls.length ∧
      (x.run slots calls).optimizer.rule.count? =
        x.optimizer.rule.count?.map (· + calls.length) ∧
      ∀ config, Optimizer.build config size = .ok x.optimizer →
        ∀ t, (x.run slots calls).optimizer.rule.count? = some t →
          (x.run slots calls).optimizer.steps = t) ∧
    (∀ calls', List.Forall₂ Call.Reorders calls calls' →
      x.run slots calls' = x.run slots calls) ∧
    ∀ (x' : Tuning α) (slots' : Fin n → Slot), x'.Ready size slots' → x'.optimizer = x.optimizer →
      (∀ j, (slots' j).flat = (slots j).flat ∧ (slots' j).len = (slots j).len) →
      (∀ j, x'.store.read x'.host (slots' j) = x.store.read x.host (slots j)) →
      (x'.run slots' calls).optimizer = (x.run slots calls).optimizer ∧
        ∀ j, (x'.run slots' calls).store.read (x'.run slots' calls).host (slots' j) =
          (x.run slots calls).store.read (x.run slots calls).host (slots j) := by
  obtain ⟨hsteps, hcount⟩ := steps_run slots x calls
  refine ⟨hx.run calls, fun j i hi => hx.element_run calls j hi, fun home k hk => hx.get?_run hk,
    fun k hsize hk => hx.planes_run hsize hk, ⟨hsteps, hcount, fun config hbuild t ht => ?_⟩,
    fun calls' hcalls => hx.run_eq hcalls, fun x' slots' hx' ho hslots hread =>
      ⟨Ready.optimizer_run ho hslots calls, fun j => hx.read_run hx' ho hslots (hread j) calls⟩⟩
  rw [hcount] at ht
  rw [hsteps]
  rw [Optimizer.eq_of_build hbuild] at ht ⊢
  cases config with
  | sgd => contradiction
  | adam => exact Option.some.inj ht

/-! ## Two parameters -/

/-- Slots for a pair of elements and for a single one, each in a buffer of its own. -/
def pairSlots : Fin 2 → Slot
  | 0 => { buffer := 0, offset := 0, flat := 0, len := 2 }
  | 1 => { buffer := 1, offset := 0, flat := 2, len := 1 }

/-- Adam on the host tensors of these parameters. -/
def pair : Tuning α where
  optimizer := { rule := .adam .standard 0, aux := .zeros 6, paramLen := 3, steps := 0 }
  store := .shared [⟨.vector 2, 0⟩, ⟨.vector 1, 1⟩]
  host := ⟨#[#[1, 0], #[1]]⟩

/-- Slots for the same parameters, end to end in one buffer. -/
def packedSlots : Fin 2 → Slot
  | 0 => { buffer := 0, offset := 0, flat := 0, len := 2 }
  | 1 => { buffer := 0, offset := 2, flat := 2, len := 1 }

/-- The same optimizer on copies of the host tensors. -/
def packed : Tuning α :=
  { pair with store := .owned #[1, 0, 1] [(⟨.vector 2, 0⟩, 0), (⟨.vector 1, 1⟩, 2)] }

/-- An update of both parameters, and one of the first parameter alone. -/
def pairCalls : List (Call ℚ 2 3) :=
  [{ listed := [1, 0], grads := #[1, 0, 2], nodup := by decide, size_eq := rfl },
    { listed := [0], grads := #[4, 5, 6], nodup := by decide, size_eq := rfl }]

theorem ready_pair : (pair : Tuning α).Ready 3 pairSlots where
  aux := Buffer.size_zeros 6
  stores
    | 0 => ⟨.cell 0, rfl, of_decide_eq_true rfl⟩
    | 1 => ⟨.cell 1, rfl, of_decide_eq_true rfl⟩
  flat_le := by decide
  flat_apart i j hne k := by
    match i, j with
    | 0, 0 | 1, 1 => exact absurd rfl hne
    | 0, 1 | 1, 0 => simp only [pairSlots, Slot.Avoids]; omega
  apart i j hne home k := by
    match i, j with
    | 0, 0 | 1, 1 => exact absurd rfl hne
    | 0, 1 | 1, 0 =>
      rintro ⟨⟨hhome, -⟩, hhome', -⟩
      exact absurd (hhome.trans hhome'.symm) (of_decide_eq_true rfl)

theorem ready_packed : (packed : Tuning α).Ready 3 packedSlots where
  aux := Buffer.size_zeros 6
  stores
    | 0 => ⟨.own, rfl, of_decide_eq_true rfl⟩
    | 1 => ⟨.own, rfl, of_decide_eq_true rfl⟩
  flat_le := by decide
  flat_apart i j hne k := by
    match i, j with
    | 0, 0 | 1, 1 => exact absurd rfl hne
    | 0, 1 | 1, 0 => simp only [packedSlots, Slot.Avoids]; omega
  apart i j hne home k := by
    match i, j with
    | 0, 0 | 1, 1 => exact absurd rfl hne
    | 0, 1 | 1, 0 => simp only [packedSlots, Store.Covers]; omega

theorem runs_follow_recurrences_pair :
    pair.Ready (α := ℚ) 3 pairSlots ∧ packed.Ready (α := ℚ) 3 packedSlots ∧
    (pair.run pairSlots pairCalls).update.element 3 (pairSlots 1) 0 =
      (Rule.adam .standard 0).course [some 2, none] ⟨1, 0, 0⟩ ∧
    (packed.run packedSlots pairCalls).optimizer = (pair.run pairSlots pairCalls).optimizer := by
  obtain ⟨-, helement, -, -, -, -, hstore⟩ := runs_follow_recurrences ready_pair pairCalls
  refine ⟨ready_pair, ready_packed, helement 1 0 (by decide), (hstore packed packedSlots
    ready_packed rfl (by decide) fun j => ?_).1⟩
  match j with
  | 0 | 1 => rfl

end Tuning

end GraphTape
