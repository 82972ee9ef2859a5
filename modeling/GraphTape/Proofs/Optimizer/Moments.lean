import GraphTape.Proofs.Optimizer.Checked

/-!
# The optimizer state after an update

The state of a rule has two planes with an entry for every element of the parameters: Adam averages
the gradients in the first one and their squares in the second one, and gradient descent has none.
The update of a slot averages in the gradients of its elements, each at the place of the element.

* `Buffer.planes`: the two entries of an element.
* `Rule.change`: the update of one slot.
* `Rule.averaged`, `Rule.next`: the entries, and the rule, after an update.
* `Rule.planes_change`: an update of one slot leaves these.
-/

namespace GraphTape

variable {α : Type}

/-- A change of the same stretch in both planes of a buffer: each plane holds its new entries
there, and both are as they were in stretches that do not meet it. -/
theorem Buffer.update_planes [Zero α] {b b' : Buffer α} {size start len : Nat}
    (hsize : b.size = 2 * size) (hle : start + len ≤ size) (f k : Nat → α → α)
    (hb : (b.update start len f).update (size + start) len k = b') :
    b'.size = b.size ∧
      (∀ i < len, b'.view start i = f i (b.view start i) ∧
        b'.view (size + start) i = k i (b.view (size + start) i)) ∧
      ∀ s n, s + n ≤ size → (s + n ≤ start ∨ start + len ≤ s) → ∀ i < n,
        b'.view s i = b.view s i ∧ b'.view (size + s) i = b.view (size + s) i := by
  have hfirst := update_fills (show start + len ≤ b.size by omega) f
  have hroom : size + start + len ≤ (b.update start len f).size := by
    rw [hfirst.size_eq]
    omega
  have hsecond := update_fills hroom k
  rw [hb] at hsecond
  refine ⟨hsecond.size_eq.trans hfirst.size_eq, fun i hi => ⟨?_, ?_⟩,
    fun s n hs hd i hi => ⟨?_, ?_⟩⟩
  · rw [hsecond.view_of_disjoint (n := len) (by omega) hi, hfirst.view_eq i hi]
  · rw [hsecond.view_eq i hi, hfirst.view_of_disjoint (n := len) (by omega) hi]
  · rw [hsecond.view_of_disjoint (n := n) (by omega) hi,
      hfirst.view_of_disjoint (n := n) (by omega) hi]
  · rw [hsecond.view_of_disjoint (n := n) (by omega) hi,
      hfirst.view_of_disjoint (n := n) (by omega) hi]

variable [Scalar α]

/-- The entries at one place of the two planes of a state. -/
def Buffer.planes (b : Buffer α) (size k : Nat) : α × α := (b.getD k 0, b.getD (size + k) 0)

/-- The place lies outside of the stretch of the slot. -/
def Slot.Avoids (slot : Slot) (k : Nat) : Prop := k < slot.flat ∨ slot.flat + slot.len ≤ k

namespace Rule

/-- The update of the parameters in one slot. -/
def change (r : Rule α) (grads : Buffer α) (u : Update α) (slot : Slot) : Update α :=
  match r with
  | sgd lr => descendSlot lr grads u slot
  | adam c t => c.updateSlot (t + 1) grads u slot

theorem snd_step (r : Rule α) (slots : List Slot) (grads : Buffer α) (u : Update α) :
    (r.step slots grads u).2 = slots.foldl (r.change grads) u := by
  cases r <;> rfl

/-- The entries of an element after an update, given its gradient. -/
def averaged (r : Rule α) (grad : α) (state : α × α) : α × α :=
  match r with
  | sgd _ => state
  | adam c _ => (c.firstMoment grad state.1, c.secondMoment grad state.2)

/-- The rule after an update. -/
def next : Rule α → Rule α
  | sgd lr => sgd lr
  | adam c t => adam c (t + 1)

theorem fst_step (r : Rule α) (slots : List Slot) (grads : Buffer α) (u : Update α) :
    (r.step slots grads u).1 = r.next := by
  cases r <;> rfl

/-- The update of one slot averages in the gradients of the slot, and no others. -/
theorem planes_change {r : Rule α} {grads : Buffer α} {u : Update α} {slot : Slot}
    (haux : u.aux.size = r.auxPerParam * grads.size)
    (hle : slot.flat + slot.len ≤ grads.size) :
    (r.change grads u slot).aux.size = u.aux.size ∧
      (∀ i < slot.len, (r.change grads u slot).aux.planes grads.size (slot.flat + i) =
        r.averaged (grads.getD (slot.flat + i) 0) (u.aux.planes grads.size (slot.flat + i))) ∧
      ∀ k < grads.size, slot.Avoids k →
        (r.change grads u slot).aux.planes grads.size k = u.aux.planes grads.size k := by
  cases r with
  | sgd lr => exact ⟨rfl, fun _ _ => rfl, fun _ _ _ => rfl⟩
  | adam c t =>
    obtain ⟨hsize, hself, haway⟩ := Buffer.update_planes haux hle
      (fun i m => c.firstMoment (grads.view slot.flat i) m)
      (fun i v => c.secondMoment (grads.view slot.flat i) v) rfl
    refine ⟨hsize, fun i hi => ?_, fun k hk hslot => ?_⟩
    · obtain ⟨hm, hv⟩ := hself i hi
      simp only [Buffer.view, Nat.add_assoc] at hm hv
      exact Prod.ext hm hv
    · obtain ⟨hm, hv⟩ := haway k 1 hk hslot 0 Nat.zero_lt_one
      exact Prod.ext hm hv

end Rule

end GraphTape
