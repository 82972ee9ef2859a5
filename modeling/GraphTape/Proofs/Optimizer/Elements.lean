import GraphTape.Proofs.Memory.Homes
import GraphTape.Proofs.Optimizer.Moments

/-!
# Updates element by element

An update advances every element of the listed slots by its own gradient and its own moments, and
touches nothing else. This needs no layout: it is enough that the slots exist, that their places in
the flat order are places of the gradients, and that no two of them meet, neither there nor in
storage. What an update leaves is determined by this, so the order of the slots does not matter.

* `Rule.advance`: the step of one element.
* `Update.Separate`: slots that exist and do not meet.
* `Update.Advanced`: an update of some slots, and `Update.Separate.foldl_change`: an update is one.
* `Update.Advanced.unique`: there is one such update only.
-/

namespace GraphTape

variable {α : Type} [Scalar α]

/-- An element of a parameter with its moments. -/
@[ext]
structure Element (α : Type) where
  value : α
  first : α
  second : α

/-- The step of one element, given its gradient. Gradient descent keeps no moments. A step of Adam
that comes after `t` others divides each moment by its bias correction. -/
def Rule.advance (r : Rule α) (grad : α) (x : Element α) : Element α :=
  match r with
  | sgd lr => { x with value := x.value - lr * grad }
  | adam c t =>
    let first := c.beta1 * x.first + (1 - c.beta1) * grad
    let second := c.beta2 * x.second + (1 - c.beta2) * grad * grad
    let mean := first / (1 - Scalar.power c.beta1 (min (t + 1) maxExponent))
    let square := second / (1 - Scalar.power c.beta2 (min (t + 1) maxExponent))
    { value := x.value - c.lr * mean / (Scalar.sqrt square + c.eps), first, second }

namespace Update

/-- Element `i` of a slot. The planes of the moments have `size` entries. -/
def element (u : Update α) (size : Nat) (slot : Slot) (i : Nat) : Element α :=
  { value := u.store.view u.host slot i
    first := (u.aux.planes size (slot.flat + i)).1
    second := (u.aux.planes size (slot.flat + i)).2 }

/-- Element `k` of a home. -/
def get? (u : Update α) (home : Store.Home) (k : Nat) : Option α := u.store.get? u.host home k

/-- The elements of the slots exist, in storage and among `size` gradients, and no two slots meet
in either. -/
structure Separate (u : Update α) (size : Nat) (slots : List Slot) : Prop where
  stores : ∀ slot ∈ slots, u.store.Stores u.host slot
  flat_le : ∀ slot ∈ slots, slot.flat + slot.len ≤ size
  apart : slots.Pairwise fun s t => (∀ k, s.Avoids k ∨ t.Avoids k) ∧
    ∀ home k, ¬ (u.store.Covers s home k ∧ u.store.Covers t home k)

/-- `u'` is `u` after the elements of some slots have been advanced once. All other elements, and
the moments at all other places, are as they were. -/
structure Advanced (r : Rule α) (grads : Buffer α) (slots : List Slot) (u u' : Update α) :
    Prop where
  wiring_eq : u'.store.wiring = u.store.wiring
  cells_eq : u'.host.cells.size = u.host.cells.size
  size_eq : u'.aux.size = u.aux.size
  isSome_eq : ∀ home k, (u'.get? home k).isSome = (u.get? home k).isSome
  element_eq : ∀ slot ∈ slots, ∀ i < slot.len, u'.element grads.size slot i =
    r.advance (grads.getD (slot.flat + i) 0) (u.element grads.size slot i)
  get?_eq : ∀ home k, (∀ slot ∈ slots, ¬ u.store.Covers slot home k) →
    u'.get? home k = u.get? home k
  planes_eq : ∀ k < grads.size, (∀ slot ∈ slots, slot.Avoids k) →
    u'.aux.planes grads.size k = u.aux.planes grads.size k

variable {r : Rule α} {grads : Buffer α} {slots slots' : List Slot} {u u' u'' : Update α}
  {slot : Slot}

/-! ## One slot -/

omit [Scalar α] in
theorem stores_congr (hw : u'.store.wiring = u.store.wiring)
    (hsome : ∀ home k, (u'.get? home k).isSome = (u.get? home k).isSome)
    (hs : u.store.Stores u.host slot) : u'.store.Stores u'.host slot := by
  obtain ⟨home, hhome, hall⟩ := hs
  exact ⟨home, (Store.home?_congr hw slot).trans hhome,
    fun i hi => (hsome home (slot.offset + i)).trans (hall i hi)⟩

/-- The change of a slot is a change of its elements in storage, each to the value that it is
advanced to. -/
theorem exists_change (haux : u.aux.size = r.auxPerParam * grads.size)
    (hle : slot.flat + slot.len ≤ grads.size) :
    ∃ f : Nat → α → α,
      (r.change grads u slot).store = (u.store.update u.host slot f).1 ∧
      (r.change grads u slot).host = (u.store.update u.host slot f).2 ∧
      ∀ i < slot.len, f i (u.store.view u.host slot i) =
        (r.advance (grads.getD (slot.flat + i) 0) (u.element grads.size slot i)).value := by
  cases r with
  | sgd lr => exact ⟨_, rfl, rfl, fun _ _ => rfl⟩
  | adam c t =>
    obtain ⟨-, hplanes, -⟩ := Rule.planes_change (r := .adam c t) haux hle
    refine ⟨_, rfl, rfl, fun i hi => ?_⟩
    obtain ⟨hm, hv⟩ := Prod.mk.inj (hplanes i hi)
    rw [← Nat.add_assoc] at hv
    exact congrArg₂ (fun m v => c.moved (t + 1) m v (u.store.view u.host slot i)) hm hv

/-- The change of one slot advances its elements. -/
theorem advanced_change (hs : u.store.Stores u.host slot)
    (haux : u.aux.size = r.auxPerParam * grads.size) (hle : slot.flat + slot.len ≤ grads.size) :
    u.Advanced r grads [slot] (r.change grads u slot) := by
  obtain ⟨f, hstore, hhost, hf⟩ := exists_change (u := u) haux hle
  obtain ⟨hsize, hplanes, haway⟩ := Rule.planes_change (r := r) haux hle
  have hget : ∀ home k, (r.change grads u slot).get? home k =
      if u.store.Covers slot home k then (u.get? home k).map (f (k - slot.offset))
      else u.get? home k := by
    intro home k
    rw [get?, hstore, hhost]
    exact Store.get?_update u.store u.host slot f home k
  refine ⟨?wiring, ?cells, hsize, fun home k => ?_, fun s hmem i hi => ?_, fun home k hk => ?_,
    fun k hk hslots => ?_⟩
  case wiring => rw [hstore, Store.wiring_update]
  case cells => rw [hhost, Store.size_cells_update]
  · rw [hget]
    split
    · exact Option.isSome_map
    · rfl
  · obtain rfl := List.mem_singleton.1 hmem
    refine Element.ext ?_ ?_ ?_
    · rw [← hf i hi, ← hs.view_update f hi, element, hstore, hhost]
    · have hfirst := congrArg Prod.fst (hplanes i hi)
      cases r <;> exact hfirst
    · have hsecond := congrArg Prod.snd (hplanes i hi)
      cases r <;> exact hsecond
  · rw [hget, if_neg (hk slot (List.mem_singleton_self slot))]
  · exact haway k hk (hslots slot (List.mem_singleton_self slot))

/-! ## One slot after the other -/

/-- A slot that meets none of those that were advanced is as it was. -/
theorem Advanced.element_of_apart (h : u.Advanced r grads slots u')
    (hs : u.store.Stores u.host slot) (hle : slot.flat + slot.len ≤ grads.size)
    (hapart : ∀ s ∈ slots, (∀ k, s.Avoids k ∨ slot.Avoids k) ∧
      ∀ home k, ¬ (u.store.Covers s home k ∧ u.store.Covers slot home k))
    {i : Nat} (hi : i < slot.len) :
    u'.element grads.size slot i = u.element grads.size slot i := by
  obtain ⟨home, hhome, -⟩ := hs
  have hcovers : u.store.Covers slot home (slot.offset + i) := ⟨hhome, by omega, by omega⟩
  have hmeets : ¬ slot.Avoids (slot.flat + i) := by
    unfold Slot.Avoids
    omega
  have hget := h.get?_eq home (slot.offset + i) fun s hmem hcov =>
    (hapart s hmem).2 home _ ⟨hcov, hcovers⟩
  have hplanes := h.planes_eq (slot.flat + i) (by omega) fun s hmem =>
    ((hapart s hmem).1 _).resolve_right hmeets
  refine Element.ext ?_ (congrArg Prod.fst hplanes) (congrArg Prod.snd hplanes)
  show u'.store.view u'.host slot i = u.store.view u.host slot i
  rw [Store.view_eq ((Store.home?_congr h.wiring_eq slot).trans hhome), Store.view_eq hhome]
  exact congrArg (Option.getD · 0) hget

theorem Advanced.trans (h : u.Advanced r grads slots u') (h' : u'.Advanced r grads slots' u'')
    (hsep : u.Separate grads.size (slots ++ slots')) :
    u.Advanced r grads (slots ++ slots') u'' := by
  obtain ⟨hstores, hle, hpairs⟩ := hsep
  obtain ⟨-, -, hcross⟩ := List.pairwise_append.1 hpairs
  have hcovers : ∀ {s : Slot} {home k}, u'.store.Covers s home k ↔ u.store.Covers s home k :=
    Store.covers_congr h.wiring_eq
  refine ⟨h'.wiring_eq.trans h.wiring_eq, h'.cells_eq.trans h.cells_eq,
    h'.size_eq.trans h.size_eq, fun home k => (h'.isSome_eq home k).trans (h.isSome_eq home k),
    fun slot hmem i hi => ?_, fun home k hk => ?_, fun k hk hk' => ?_⟩
  · rcases List.mem_append.1 hmem with hslot | hslot
    · have hlater : u''.element grads.size slot i = u'.element grads.size slot i := by
        refine h'.element_of_apart (stores_congr h.wiring_eq h.isSome_eq (hstores slot hmem))
          (hle slot hmem) (fun s hs => ⟨fun k => ?_, fun home k hboth => ?_⟩) hi
        · exact ((hcross slot hslot s hs).1 k).symm
        · exact (hcross slot hslot s hs).2 home k ⟨hcovers.1 hboth.2, hcovers.1 hboth.1⟩
      rw [hlater, h.element_eq slot hslot i hi]
    · have hearlier : u'.element grads.size slot i = u.element grads.size slot i :=
        h.element_of_apart (hstores slot hmem) (hle slot hmem)
          (fun s hs => hcross s hs slot hslot) hi
      rw [h'.element_eq slot hslot i hi, hearlier]
  · rw [h'.get?_eq home k fun s hs hcov => hk s (List.mem_append_right _ hs) (hcovers.1 hcov),
      h.get?_eq home k fun s hs => hk s (List.mem_append_left _ hs)]
  · rw [h'.planes_eq k hk fun s hs => hk' s (List.mem_append_right _ hs),
      h.planes_eq k hk fun s hs => hk' s (List.mem_append_left _ hs)]

omit [Scalar α] in
theorem Separate.congr {size : Nat} (h : u.Separate size slots)
    (hw : u'.store.wiring = u.store.wiring)
    (hsome : ∀ home k, (u'.get? home k).isSome = (u.get? home k).isSome) :
    u'.Separate size slots := by
  refine ⟨fun slot hs => stores_congr hw hsome (h.stores slot hs), h.flat_le, ?_⟩
  refine h.apart.imp fun {s t} hpair => ⟨hpair.1, fun home k hboth => ?_⟩
  exact hpair.2 home k ⟨(Store.covers_congr hw).1 hboth.1, (Store.covers_congr hw).1 hboth.2⟩

/-- The changes of separate slots, one after the other, advance the elements of all of them. -/
theorem Separate.foldl_change (hsep : u.Separate grads.size slots)
    (haux : u.aux.size = r.auxPerParam * grads.size) :
    u.Advanced r grads slots (slots.foldl (r.change grads) u) := by
  induction slots generalizing u with
  | nil => exact ⟨rfl, rfl, rfl, fun _ _ => rfl, by simp, fun _ _ _ => rfl, fun _ _ _ => rfl⟩
  | cons slot slots ih =>
    have hmem : slot ∈ slot :: slots := List.mem_cons_self
    have hfirst := advanced_change (r := r) (hsep.stores slot hmem) haux (hsep.flat_le slot hmem)
    have hrest : u.Separate grads.size slots :=
      ⟨fun s hs => hsep.stores s (List.mem_cons_of_mem slot hs),
        fun s hs => hsep.flat_le s (List.mem_cons_of_mem slot hs), hsep.apart.of_cons⟩
    rw [List.foldl_cons]
    exact hfirst.trans (ih (hrest.congr hfirst.wiring_eq hfirst.isSome_eq)
      (hfirst.size_eq.trans haux)) hsep

/-! ## The order of the slots -/

/-- A state is known by its planes. -/
theorem aux_ext {size : Nat} {b b' : Buffer α} (hb : b.size = r.auxPerParam * size)
    (hsize : b'.size = b.size) (hplanes : ∀ k < size, b'.planes size k = b.planes size k) :
    b' = b := by
  refine Array.ext hsize fun k hk' hk => ?_
  have hget : ∀ {k : Nat} (hk' : k < b'.size) (hk : k < b.size), b'.getD k 0 = b.getD k 0 →
      b'[k] = b[k] := by
    intro k hk' hk heq
    simpa [hk', hk] using heq
  cases r with
  | sgd => exact absurd hk (by rw [hb, Rule.auxPerParam, Nat.zero_mul]; exact Nat.not_lt_zero k)
  | adam =>
    simp only [Rule.auxPerParam] at hb
    by_cases hlt : k < size
    · exact hget hk' hk (congrArg Prod.fst (hplanes k hlt))
    · have hsecond := congrArg Prod.snd (hplanes (k - size) (by omega))
      simp only [Buffer.planes, show size + (k - size) = k by omega] at hsecond
      exact hget hk' hk hsecond

/-- What an update leaves is determined by the slots that it lists, whatever their order. -/
theorem Advanced.unique (h : u.Advanced r grads slots u') (h' : u.Advanced r grads slots' u'')
    (hmem : ∀ slot, slot ∈ slots' ↔ slot ∈ slots)
    (haux : u.aux.size = r.auxPerParam * grads.size) : u'' = u' := by
  have helement : ∀ slot ∈ slots, ∀ i < slot.len,
      u''.element grads.size slot i = u'.element grads.size slot i := fun slot hs i hi =>
    (h'.element_eq slot ((hmem slot).2 hs) i hi).trans (h.element_eq slot hs i hi).symm
  have hstate : u''.aux = u'.aux := by
    refine aux_ext (r := r) (h.size_eq.trans haux) (h'.size_eq.trans h.size_eq.symm)
      fun k hk => ?_
    by_cases hmeets : ∃ slot ∈ slots, ¬ slot.Avoids k
    · obtain ⟨slot, hs, hk'⟩ := hmeets
      unfold Slot.Avoids at hk'
      have hplace := helement slot hs (k - slot.flat) (by omega)
      rw [element, element, Element.mk.injEq, show slot.flat + (k - slot.flat) = k by omega]
        at hplace
      exact Prod.ext hplace.2.1 hplace.2.2
    · push Not at hmeets
      rw [h'.planes_eq k hk fun slot hs => hmeets slot ((hmem slot).1 hs),
        h.planes_eq k hk hmeets]
  have hget : ∀ home k, u''.get? home k = u'.get? home k := by
    intro home k
    by_cases hcovers : ∃ slot ∈ slots, u.store.Covers slot home k
    · obtain ⟨slot, hs, hhome, hle, hlt⟩ := hcovers
      have hvalue := congrArg Element.value (helement slot hs (k - slot.offset) (by omega))
      simp only [element] at hvalue
      rw [Store.view_eq ((Store.home?_congr h'.wiring_eq slot).trans hhome),
        Store.view_eq ((Store.home?_congr h.wiring_eq slot).trans hhome),
        show slot.offset + (k - slot.offset) = k by omega] at hvalue
      have hsome := (h'.isSome_eq home k).trans (h.isSome_eq home k).symm
      change (u''.get? home k).getD 0 = (u'.get? home k).getD 0 at hvalue
      generalize u''.get? home k = x at hvalue hsome ⊢
      generalize u'.get? home k = y at hvalue hsome ⊢
      cases x <;> cases y <;> simp_all
    · push Not at hcovers
      rw [h'.get?_eq home k fun slot hs => hcovers slot ((hmem slot).1 hs),
        h.get?_eq home k hcovers]
  obtain ⟨hstore, hhost⟩ := Store.eq_of_get? (h'.wiring_eq.trans h.wiring_eq.symm)
    (h'.cells_eq.trans h.cells_eq.symm) hget
  cases u'
  cases u''
  simp_all

end Update

end GraphTape
