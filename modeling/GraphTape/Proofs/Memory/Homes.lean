import GraphTape.Proofs.Memory.Store

/-!
# Where elements are stored

An element of a parameter has a home: the private buffer of its store or a cell of the host. A
change of a slot changes the elements that the slot covers in its home, and no other element
anywhere, so a store and a host are known when every element of every home is.

* `Store.get?`: the elements of all homes.
* `Store.Covers`: the elements of a slot.
* `Store.get?_update`: the elements after a change.
* `Store.eq_of_get?`: a store and a host by their elements.
-/

namespace GraphTape.Store

variable {α : Type}

/-- Where elements are stored: in a private buffer, or in a cell of the host. -/
inductive Home where
  | own
  | cell (c : Nat)
  deriving DecidableEq

/-- The home of the elements of a slot. -/
def home? (st : Store α) (slot : Slot) : Option Home :=
  match st with
  | owned .. => some .own
  | shared tensors => tensors[slot.buffer]?.map fun t => .cell t.cell

/-- Element `k` of a home. -/
def get? (st : Store α) (h : Host α) (home : Home) (k : Nat) : Option α :=
  match home, st with
  | .own, owned buffer _ => buffer[k]?
  | .own, shared _ => none
  | .cell c, _ => h.cells[c]?.bind (·[k]?)

/-- Element `k` of a home is one of the elements of a slot. -/
def Covers (st : Store α) (slot : Slot) (home : Home) (k : Nat) : Prop :=
  st.home? slot = some home ∧ slot.offset ≤ k ∧ k < slot.offset + slot.len

instance (st : Store α) (slot : Slot) (home : Home) (k : Nat) :
    Decidable (st.Covers slot home k) := inferInstanceAs (Decidable (_ ∧ _))

/-- All elements of a slot exist. -/
def Stores (st : Store α) (h : Host α) (slot : Slot) : Prop :=
  ∃ home, st.home? slot = some home ∧
    ∀ i < slot.len, (st.get? h home (slot.offset + i)).isSome = true

/-- The tensors that a store knows, which no change of elements touches. -/
def wiring : Store α → List (Tensor × Nat) ⊕ List Tensor
  | owned _ hosts => .inl hosts
  | shared tensors => .inr tensors

variable {st st' : Store α} {h h' : Host α} {slot : Slot}

theorem home?_congr (hw : st'.wiring = st.wiring) (slot : Slot) :
    st'.home? slot = st.home? slot := by
  cases st <;> cases st' <;> simp_all [wiring, home?]

theorem covers_congr (hw : st'.wiring = st.wiring) {home : Home} {k : Nat} :
    st'.Covers slot home k ↔ st.Covers slot home k := by
  rw [Covers, Covers, home?_congr hw]

theorem ownership_congr (hw : st'.wiring = st.wiring) : st'.ownership = st.ownership := by
  cases st <;> cases st' <;> simp_all [wiring, ownership]

/-- A store and a host are known by their elements. -/
theorem eq_of_get? (hw : st'.wiring = st.wiring) (hcells : h'.cells.size = h.cells.size)
    (hget : ∀ home k, st'.get? h' home k = st.get? h home k) : st' = st ∧ h' = h := by
  constructor
  · cases st with
    | owned buffer hosts =>
      cases st' with
      | owned buffer' hosts' =>
        have hbuffer : buffer' = buffer := Array.ext_getElem? fun k => hget .own k
        rw [hbuffer, Sum.inl.inj hw]
      | shared => contradiction
    | shared tensors =>
      cases st' with
      | owned => contradiction
      | shared tensors' => rw [Sum.inr.inj hw]
  · have hsame : h'.cells = h.cells := by
      refine Array.ext hcells fun c hc hc' => Array.ext_getElem? fun k => ?_
      simpa [get?, hc, hc'] using hget (.cell c) k
    cases h
    cases h'
    rw [Host.mk.injEq]
    exact hsame

/-! ## After a change -/

section Update

variable (st h slot) (f : Nat → α → α)

theorem wiring_update : (st.update h slot f).1.wiring = st.wiring := by
  cases st with
  | owned => rfl
  | shared tensors =>
    rw [update]
    split <;> rfl

theorem size_cells_update : (st.update h slot f).2.cells.size = h.cells.size := by
  cases st with
  | owned => rfl
  | shared tensors =>
    rw [update]
    split
    · exact Array.size_modify ..
    · rfl

/-- A change reaches the elements that the slot covers. -/
theorem get?_update (home : Home) (k : Nat) :
    (st.update h slot f).1.get? (st.update h slot f).2 home k =
      if st.Covers slot home k then (st.get? h home k).map (f (k - slot.offset))
      else st.get? h home k := by
  cases st with
  | owned buffer hosts =>
    cases home with
    | own =>
      simp only [update, get?, Covers, home?, true_and]
      exact Buffer.getElem?_update ..
    | cell c => simp [update, get?, Covers, home?]
  | shared tensors =>
    cases ht : tensors[slot.buffer]? with
    | none => simp [update, Covers, home?, ht]
    | some t =>
      cases home with
      | own => simp [update, get?, Covers, home?, ht]
      | cell c =>
        simp only [update, ht, get?, Covers, home?, Option.map_some, Option.some.injEq,
          Home.cell.injEq, Host.modify, Array.getElem?_modify]
        by_cases hc : t.cell = c
        · cases hcell : h.cells[c]? with
          | none => simp [hc]
          | some b =>
            simp only [hc, if_true, true_and, Option.map_some, Option.bind_some]
            exact Buffer.getElem?_update ..
        · simp [hc]

variable {st h slot} [Zero α]

/-- The values in a slot are the elements of its home. -/
theorem view_eq {home : Home} (hhome : st.home? slot = some home) (i : Nat) :
    st.view h slot i = (st.get? h home (slot.offset + i)).getD 0 := by
  cases st with
  | owned buffer hosts =>
    obtain rfl := Option.some.inj hhome
    simp only [view, Buffer.view, get?, Array.getD_eq_getD_getElem?]
  | shared tensors =>
    obtain ⟨t, ht, rfl⟩ := Option.map_eq_some_iff.1 hhome
    simp only [view, ht, Buffer.view, get?, Host.read, Array.getD_eq_getD_getElem?]
    cases h.cells[t.cell]? <;> rfl

/-- The values of a slot after a change of it. -/
theorem Stores.view_update (hs : st.Stores h slot) {i : Nat} (hi : i < slot.len) :
    (st.update h slot f).1.view (st.update h slot f).2 slot i = f i (st.view h slot i) := by
  obtain ⟨home, hhome, hsome⟩ := hs
  have hhome' : (st.update h slot f).1.home? slot = some home :=
    (home?_congr (wiring_update st h slot f) slot).trans hhome
  have hcovers : st.Covers slot home (slot.offset + i) := ⟨hhome, by omega, by omega⟩
  obtain ⟨x, hx⟩ := Option.isSome_iff_exists.1 (hsome i hi)
  rw [view_eq hhome', view_eq hhome, get?_update, if_pos hcovers, hx, Nat.add_sub_cancel_left]
  rfl

end Update

end GraphTape.Store
