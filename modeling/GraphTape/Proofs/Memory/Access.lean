import GraphTape.Proofs.Buffer.Part
import GraphTape.Proofs.Memory.Homes

/-!
# Slots within their buffers

A slot names a state buffer and a stretch of it. `Store.part?` and `Store.within?` look the buffer
up and take the stretch out, or stop where either does not exist. In a store that compilation has
placed every slot of the layout exists, whatever happened to the host tensors since: their lengths
cannot change.

* `Store.Placed`: a store that serves a graph, with slots that name its buffers.
* `Store.Placed.exists_part`, `Store.Placed.within?_eq`: reading and changing a parameter.
-/

namespace GraphTape

variable {α : Type}

theorem Host.modify_const (h : Host α) (t : Tensor) (f : Buffer α → Buffer α) :
    h.modify t (fun _ => f (h.read t)) = h.modify t f := by
  rw [modify, modify]
  congr 1
  apply Array.ext_getElem?
  intro i
  simp only [Array.getElem?_modify, read, Array.getD_eq_getD_getElem?]
  split
  · rename_i heq
    subst heq
    rcases h.cells[t.cell]? with - | b <;> rfl
  · rfl

namespace Store

/-- The state buffers. -/
def buffers (st : Store α) (h : Host α) : List (Buffer α) :=
  match st with
  | owned buffer _ => [buffer]
  | shared tensors => tensors.map h.read

/-- The slice of a slot, if its buffer exists and has it. -/
def part? (st : Store α) (h : Host α) (slot : Slot) : Option (Buffer α) := do
  let b ← (st.buffers h)[slot.buffer]?
  b.part? slot.offset slot.len

/-- Works on the slice of a slot alone. -/
def within? [Zero α] (st : Store α) (h : Host α) (slot : Slot)
    (f : Buffer α → Option (Buffer α)) : Option (Store α × Host α) :=
  match st with
  | owned buffer hosts =>
    if slot.buffer = 0 then do
      let buffer ← buffer.within? slot.offset slot.len f
      some (owned buffer hosts, h)
    else none
  | shared tensors => do
    let t ← tensors[slot.buffer]?
    let data ← (h.read t).within? slot.offset slot.len f
    some (shared tensors, h.modify t fun _ => data)

/-- The buffer of a slot exists and has its stretch. -/
def Holds (st : Store α) (h : Host α) (slot : Slot) : Prop :=
  ∃ b, (st.buffers h)[slot.buffer]? = some b ∧ slot.offset + slot.len ≤ b.size

variable [Zero α] {st : Store α} {h : Host α} {slot : Slot}

theorem Holds.exists_part (hh : st.Holds h slot) :
    ∃ p, st.part? h slot = some p ∧ p.size = slot.len ∧
      ∀ i < slot.len, p.view 0 i = st.view h slot i := by
  obtain ⟨b, hb, hle⟩ := hh
  obtain ⟨p, hp, hsize, hview⟩ := Buffer.exists_part hle
  refine ⟨p, by rw [part?, hb]; exact hp, hsize, fun i hi => ?_⟩
  rw [hview i hi]
  cases st with
  | owned buffer hosts =>
    rw [buffers, List.getElem?_singleton] at hb
    split at hb
    · rw [view, Option.some.inj hb]
    · contradiction
  | shared tensors =>
    rw [buffers, List.getElem?_map, Option.map_eq_some_iff] at hb
    obtain ⟨t, ht, rfl⟩ := hb
    simp only [view, ht]

/-- A change of every element of a parameter, made on its slice alone. -/
theorem Holds.within?_eq (hh : st.Holds h slot) {f : Nat → α → α}
    {k : Buffer α → Option (Buffer α)} (hk : Buffer.Changes slot.len f k) :
    st.within? h slot k = some (st.update h slot f) := by
  obtain ⟨b, hb, hle⟩ := hh
  have hwithin := Buffer.within?_eq_update hle hk
  cases st with
  | owned buffer hosts =>
    rw [buffers, List.getElem?_singleton] at hb
    split at hb
    · rename_i hzero
      obtain rfl := Option.some.inj hb
      simp only [within?, hzero, if_true, hwithin, Option.bind_eq_bind, Option.bind_some, update]
    · contradiction
  | shared tensors =>
    rw [buffers, List.getElem?_map, Option.map_eq_some_iff] at hb
    obtain ⟨t, ht, rfl⟩ := hb
    simp only [within?, ht, hwithin, Option.bind_eq_bind, Option.bind_some, update,
      Host.modify_const h t fun b => b.update slot.offset slot.len f]

/-! ## Placed stores -/

/-- A store that holds the parameters of a graph, in the buffers that the slots name. -/
structure Placed (g : Graph α) (l : Layout) (st : Store α) (h : Host α) : Prop extends
    st.Serves g l h where
  buffer_eq : st.ownership = .copy → ∀ o, (g.tensor? o).isSome = true →
    (l.slotOf o).buffer = 0

namespace Placed

variable {g : Graph α} {l : Layout}

omit [Zero α] in
/-- Every slot of the layout exists. -/
theorem holds (hp : st.Placed g l h) (hl : l.Fits g) {o : Owner}
    (ho : (g.tensor? o).isSome = true) : st.Holds h (l.slotOf o) := by
  have hlen := hl.len_eq ho
  have hsize := fun {t} (ht : g.tensor? o = some t) => hp.toServes.size_read ht
  have hbuffer := hp.buffer_eq
  obtain ⟨hbacks, -, -, -⟩ := hp.toServes
  cases hbacks with
  | @owned buffer hbuffersize hoffset =>
    refine ⟨buffer, by rw [hbuffer rfl o ho]; rfl, ?_⟩
    rw [hoffset o ho, hbuffersize]
    exact hl.flat_le o ho
  | @shared tensors htensors =>
    obtain ⟨t, ht⟩ := Option.isSome_iff_exists.1 ho
    obtain ⟨hget, hoffset⟩ := htensors o t ht
    refine ⟨h.read t, by rw [buffers, List.getElem?_map, hget]; rfl, ?_⟩
    rw [hoffset, hlen, hsize ht]
    omega

omit [Zero α] in
theorem ownership_update (st : Store α) (h : Host α) (slot : Slot) (f : Nat → α → α) :
    (st.update h slot f).1.ownership = st.ownership :=
  ownership_congr (wiring_update st h slot f)

theorem update (hp : st.Placed g l h) (hl : l.Fits g) {o : Owner}
    (ho : (g.tensor? o).isSome = true) (f : Nat → α → α) :
    (st.update h (l.slotOf o) f).1.Placed g l (st.update h (l.slotOf o) f).2 :=
  { (hp.toServes.update hl ho f).1 with
    buffer_eq := by
      rw [ownership_update]
      exact hp.buffer_eq }

theorem sync (hp : st.Placed g l h) : st.Placed g l (st.sync h) :=
  { hp.toServes.sync.1 with buffer_eq := hp.buffer_eq }

theorem reload (hp : st.Placed g l h) (hl : l.Fits g) : (st.reload h).Placed g l h :=
  { (hp.toServes.reload hl).1 with
    buffer_eq := by
      have hsame : (st.reload h).ownership = st.ownership := by cases st <;> rfl
      rw [hsame]
      exact hp.buffer_eq }

omit [Zero α] in
/-- The store is served by any host whose tensors have the same lengths. -/
theorem rehost (hp : st.Placed g l h) {h' : Host α} (hh : g.HostedBy h') : st.Placed g l h' :=
  { hp with hosted := hh }

end Placed

theorem buffer_of_mem_alignedSlots {slot : Slot} {i flat : Nat} {ts : List Tensor}
    (hmem : slot ∈ alignedSlots .copy i flat ts) : slot.buffer = 0 := by
  induction ts generalizing i flat with
  | nil => simp [alignedSlots] at hmem
  | cons t ts ih =>
    rcases List.mem_cons.1 hmem with rfl | hmem
    · rfl
    · exact ih hmem

/-- The store of a compiled graph is placed, with the elements of the host tensors. -/
theorem placed_of_compile {g : Graph α} {l : Layout} {s : Schedule} {ownership : Ownership}
    {aux : Nat} (hc : Layout.compile g h ownership aux = .ok (s, l, st)) (hh : g.HostedBy h) :
    st.Placed g l h ∧ st.Current g l h := by
  obtain ⟨hserves, hcurrent⟩ := serves_of_compile hc hh
  obtain ⟨-, -, hplace, hl⟩ := Layout.compile_spec hc
  refine ⟨{ hserves with buffer_eq := fun hcopy o ho => ?_ }, hcurrent⟩
  obtain ⟨-, -, hshared⟩ := place_spec hplace
  cases ownership with
  | reference =>
    rw [hshared rfl] at hcopy
    contradiction
  | copy =>
    obtain ⟨t, ht⟩ := Option.isSome_iff_exists.1 ho
    have hlookup := (hl.lookup_slotOf ht).1
    rw [hl.params_eq] at hlookup
    obtain ⟨before, after, hsplit, -⟩ := List.lookup_eq_some_iff.1 hlookup
    have hmem : (o, l.slotOf o) ∈ g.slots .copy := hsplit ▸ by simp
    rw [g.slots_eq_slotTable] at hmem
    exact buffer_of_mem_alignedSlots (List.of_mem_zip hmem).2

end Store

end GraphTape
