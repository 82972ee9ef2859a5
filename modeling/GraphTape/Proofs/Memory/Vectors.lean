import GraphTape.Proofs.Memory.Access
import GraphTape.Proofs.Memory.Cells

/-!
# The vectors behind a store

A store and a host stand for one live vector and one host vector of each parameter. In a private
buffer the live vectors are its blocks, end to end: a change of a stretch is a change of one
vector, and copying to the host or from it is a copy of every vector.

* `Stretch.slot`: where a stretch of a parameter is stored, with `Stretch.slot_copy` and
  `Stretch.slot_reference`.
* `Host.behind`, `Store.live`, `Store.cells`: the vectors.
* `Store.live_update_owned`, `Store.sync_owned`, `Store.reload_owned`, `Store.live_placed`: what
  becomes of the vectors of a private buffer.
-/

namespace GraphTape

variable {α : Type} {ts : List Tensor}

/-! ## Vectors on the host -/

namespace Host

/-- The elements behind a site. -/
def behind (h : Host α) (site : Site ts) : Buffer α := h.cells.getD site.cell #[]

theorem behind_of (h : Host α) (t : Tensor) : h.behind (.of ts t) = h.read t := by
  rw [behind, read, Site.cell_of]

/-- A change behind a handle that keeps the length is a change of its site. -/
theorem behind_modify (h : Host α) (hdistinct : (ts.map Tensor.cell).Nodup) {t : Tensor}
    {f : Buffer α → Buffer α} (hf : (f (h.read t)).size = (h.read t).size) :
    (h.modify t f).behind =
      Function.update (h.behind : Site ts → Buffer α) (.of ts t) (f (h.read t)) := by
  funext site
  simp only [Function.update_apply, eq_comm (a := site), Site.of_eq_iff hdistinct]
  simp only [behind, read, modify, Array.getD_eq_getD_getElem?, Array.getElem?_modify] at hf ⊢
  split
  · rename_i hcell
    rw [← hcell]
    cases hc : h.cells[t.cell]? with
    | none =>
      -- a handle without a cell has no elements, before and after
      rw [hc] at hf
      exact (Array.eq_empty_of_size_eq_zero hf).symm
    | some b => rfl
  · rfl

/-- A host is known by what is behind its sites. -/
theorem eq_of_behind (h : Host α) {h' : Host α} (hsize : h'.cells.size = h.cells.size)
    (hbehind : (h'.behind : Site ts → Buffer α) = h.behind) : h' = h := by
  have hcells : h'.cells = h.cells := by
    refine Array.ext hsize fun c hc' hc => ?_
    have hcell := congrFun hbehind (.of ts ⟨default, c⟩)
    rw [behind_of, behind_of] at hcell
    simpa [read, hc, hc'] using hcell
  cases h
  cases h'
  rw [mk.injEq]
  exact hcells

/-- The tensors are allocated, each with as many elements as its shape asks for. -/
def HasTensors (h : Host α) (ts : List Tensor) : Prop :=
  ∀ t ∈ ts, t.cell < h.cells.size ∧ (h.read t).size = t.count

theorem HasTensors.size_read {h : Host α} (hh : h.HasTensors ts) (p : Fin ts.length) :
    (h.read (ts.get p)).size = (ts.get p).count :=
  (hh _ (List.getElem_mem p.isLt)).2

/-- A tensor is made with as many elements as its shape asks for. -/
theorem HasTensors.ofData {h h' : Host α} (hh : h.HasTensors ts) {shape : Shape} {t : Tensor}
    {data : Buffer α} (hmade : h.ofData shape data = .ok (t, h')) : h'.HasTensors (t :: ts) := by
  rw [Host.ofData] at hmade
  split at hmade
  · rename_i hsize
    obtain ⟨rfl, rfl⟩ := Prod.mk.inj (Except.ok.inj hmade)
    intro u hu
    rcases List.mem_cons.1 hu with rfl | hu
    · exact ⟨by simp, (congrArg Array.size (h.read_alloc_self shape data)).trans hsize⟩
    · obtain ⟨hcell, hread⟩ := hh u hu
      refine ⟨Nat.lt_of_lt_of_le hcell (by simp), ?_⟩
      exact (congrArg Array.size (h.read_alloc_of_lt shape data hcell)).trans hread
  · contradiction

/-- A change that keeps the length of what is behind a handle keeps all tensors. -/
theorem HasTensors.modify {h : Host α} (hh : h.HasTensors ts) {t : Tensor}
    {f : Buffer α → Buffer α} (hf : (f (h.read t)).size = (h.read t).size) :
    (h.modify t f).HasTensors ts := by
  intro u hu
  obtain ⟨hcell, hsize⟩ := hh u hu
  refine ⟨?_, (h.size_read_modify hcell hf).trans hsize⟩
  rw [Host.modify, Array.size_modify]
  exact hcell

end Host

/-! ## Where stretches are stored -/

theorem getElem?_alignedSlots (ownership : Ownership) (i flat : Nat) (ts : List Tensor) (p : Nat) :
    (alignedSlots ownership i flat ts)[p]? = ts[p]?.map fun t =>
      alignedSlot ownership (i + p) (flat + packedLength Tensor.count (ts.take p)) t.count := by
  induction ts generalizing i flat p with
  | nil => rfl
  | cons t ts ih =>
    cases p with
    | zero => rfl
    | succ p =>
      simp only [alignedSlots, List.getElem?_cons_succ, ih, List.take_succ_cons, packedLength,
        Nat.add_assoc, Nat.add_comm 1 p]

theorem length_slots (ownership : Ownership) (ts : List Tensor) :
    (slots ownership ts).length = ts.length := by
  have hlength : ∀ i flat, (alignedSlots ownership i flat ts).length = ts.length := by
    induction ts with
    | nil => exact fun _ _ => rfl
    | cons t ts ih => exact fun i flat => congrArg (· + 1) (ih (i + 1) _)
  rw [slots, slotsFrom_locations, hlength]

namespace Stretch

/-- The number of elements of the parameters before one. -/
def first (p : Fin ts.length) : Nat := packedLength Tensor.count (ts.take p)

/-- The slot of a stretch: a part of the slot of its parameter. -/
def slot (ownership : Ownership) (s : Stretch ts) : Slot :=
  ((slots ownership ts).get (s.param.cast (length_slots ownership ts).symm)).narrow s.start s.len

theorem get_slots (ownership : Ownership) (p : Fin ts.length) :
    (slots ownership ts).get (p.cast (length_slots ownership ts).symm) =
      alignedSlot ownership p (first p) (ts.get p).count := by
  have hslot := getElem?_alignedSlots ownership 0 0 ts p
  rw [← slotsFrom_locations, List.getElem?_eq_getElem p.isLt, Option.map_some] at hslot
  obtain ⟨hlt, hslot⟩ := List.getElem?_eq_some_iff.1 hslot
  simp only [Nat.zero_add] at hslot
  exact hslot

variable (s : Stretch ts)

theorem slot_copy : s.slot .copy =
    { buffer := 0, offset := first s.param + s.start, flat := first s.param + s.start,
      len := s.len } := by
  rw [slot, get_slots, alignedSlot, Slot.narrow]

theorem slot_reference : s.slot .reference =
    { buffer := s.param, offset := s.start, flat := first s.param + s.start, len := s.len } := by
  rw [slot, get_slots, alignedSlot, Slot.narrow, Nat.zero_add]

@[simp]
theorem slot_len (ownership : Ownership) : (s.slot ownership).len = s.len := rfl

/-- A stretch is a part of its parameter. -/
theorem slot_eq_narrow (ownership : Ownership) :
    s.slot ownership = ((whole s.param).slot ownership).narrow s.start s.len := rfl

theorem first_add_le (p : Fin ts.length) :
    first p + (ts.get p).count ≤ packedLength Tensor.count ts :=
  packedLength_take_add_le p.isLt

theorem first_disjoint {p q : Fin ts.length} (hne : p ≠ q) :
    first p + (ts.get p).count ≤ first q ∨ first q + (ts.get q).count ≤ first p :=
  packedLength_take_disjoint p.isLt q.isLt (Fin.val_ne_of_ne hne)

/-- Every element of a buffer for all parameters belongs to one of them. -/
theorem exists_first_add {k : Nat} (hk : k < packedLength Tensor.count ts) :
    ∃ (p : Fin ts.length) (i : Nat), i < (ts.get p).count ∧ first p + i = k := by
  obtain ⟨p, hp, hle, hlt⟩ := exists_packedLength_take hk
  exact ⟨⟨p, hp⟩, k - packedLength Tensor.count (ts.take p), Nat.sub_lt_left_of_lt_add hle hlt,
    Nat.add_sub_cancel' hle⟩

theorem getElem?_param (p : Fin ts.length) : ts[(p : Nat)]? = some (ts.get p) :=
  List.getElem?_eq_getElem p.isLt

theorem packed_eq_map (ts : List Tensor) :
    packed Tensor.count 0 ts = (List.finRange ts.length).map fun p => (ts.get p, first p) := by
  apply List.ext_getElem?
  intro k
  rw [getElem?_packed, List.getElem?_map]
  by_cases hk : k < ts.length
  · simp [hk, first]
  · simp [hk]

end Stretch

/-! ## The cells behind a store -/

namespace Store

variable [Zero α]

/-- The values of a parameter. -/
def live (st : Store α) (h : Host α) (p : Fin ts.length) : Buffer α :=
  (st.read h ((Stretch.whole p).slot st.ownership)).toArray

/-- The vectors that a store and a host stand for. -/
def cells (ts : List Tensor) (st : Store α) (h : Host α) : Cells α ts :=
  match st.ownership with
  | .copy => .apart (st.live h) h.behind
  | .reference => .joint h.behind

theorem size_live (st : Store α) (h : Host α) (p : Fin ts.length) :
    (st.live h p).size = (ts.get p).count := by
  simp [live, read, Stretch.whole]

/-- The values of a parameter, one by one. -/
theorem view_live (st : Store α) (h : Host α) {p : Fin ts.length} {i : Nat}
    (hi : i < (ts.get p).count) :
    (st.live h p).view 0 i = st.view h ((Stretch.whole p).slot st.ownership) i := by
  have hlt : i < (Stretch.whole p).len := hi
  simp [live, read, Buffer.view, hlt]

theorem view_narrow (st : Store α) (h : Host α) (slot : Slot) (start len i : Nat) :
    st.view h (slot.narrow start len) i = st.view h slot (start + i) := by
  cases st with
  | owned => simp only [view, Slot.narrow, Buffer.view, Nat.add_assoc]
  | shared tensors =>
    simp only [view, Slot.narrow]
    cases tensors[slot.buffer]? with
    | none => rfl
    | some t => simp only [Buffer.view, Nat.add_assoc]

/-- The values of a stretch are those of its parameter. -/
theorem view_slot (st : Store α) (h : Host α) (s : Stretch ts) {i : Nat} (hi : i < s.len) :
    st.view h (s.slot st.ownership) i = (st.live h s.param).view s.start i := by
  have hlt : s.start + i < (ts.get s.param).count := Nat.lt_of_lt_of_le (by omega) s.le
  have hview := view_live st h hlt
  rw [s.slot_eq_narrow, view_narrow, ← hview]
  simp only [Buffer.view, Nat.zero_add]

/-! ### Private buffers -/

section Owned

variable {buffer : Buffer α} {hosts : List (Tensor × Nat)} {h : Host α} {p : Fin ts.length}

theorem view_live_owned {i : Nat} (hi : i < (ts.get p).count) :
    ((owned buffer hosts).live h p).view 0 i = buffer.view (Stretch.first p) i := by
  rw [view_live _ _ hi, ownership, Stretch.slot_copy]
  rfl

theorem live_owned_eq {b : Buffer α} (hb : b.size = (ts.get p).count)
    (hview : ∀ i < (ts.get p).count, buffer.view (Stretch.first p) i = b.view 0 i) :
    (owned buffer hosts).live h p = b := by
  refine Buffer.ext_view ((size_live ..).trans hb.symm) fun i hi => ?_
  rw [size_live] at hi
  rw [view_live_owned hi, hview i hi]

/-- A change of a stretch of the buffer changes one parameter. -/
theorem live_update_owned (hsize : buffer.size = packedLength Tensor.count ts) (s : Stretch ts)
    (f : Nat → α → α) :
    (owned (buffer.update (Stretch.first s.param + s.start) s.len f) hosts).live h =
      Function.update ((owned buffer hosts).live h) s.param
        (((owned buffer hosts).live h s.param).update s.start s.len f) := by
  have hfills := Buffer.update_fills_of_le
    (hsize ▸ Stretch.first_add_le s.param) s.le f
  funext q
  by_cases hq : q = s.param
  · subst hq
    rw [Function.update_self]
    refine live_owned_eq (by rw [Buffer.size_update, size_live]) fun i hi => ?_
    have hroom : 0 + (ts.get s.param).count ≤ ((owned buffer hosts).live h s.param).size := by
      rw [size_live, Nat.zero_add]
    have hlive := Buffer.update_fills_of_le hroom s.le f
    rw [Nat.zero_add] at hlive
    rw [hfills.view_eq i hi, hlive.view_eq i hi, view_live_owned hi]
  · rw [Function.update_of_ne hq]
    refine live_owned_eq (size_live ..) fun i hi => ?_
    rw [view_live_owned hi]
    exact hfills.view_of_disjoint (Stretch.first_disjoint hq) hi

/-- Copying to the host makes every host vector equal to the live one, and changes nothing else. -/
theorem sync_owned (buffer : Buffer α) (hdistinct : (ts.map Tensor.cell).Nodup)
    (hh : h.HasTensors ts) (hhosts : hosts = packed Tensor.count 0 ts) :
    ((owned buffer hosts).sync h).HasTensors ts ∧
      ((owned buffer hosts).sync h).cells.size = h.cells.size ∧
      (∀ u : Tensor, (∀ t ∈ ts, t.cell ≠ u.cell) →
        ((owned buffer hosts).sync h).read u = h.read u) ∧
      ∀ p : Fin ts.length,
        ((owned buffer hosts).sync h).read (ts.get p) = (owned buffer hosts).live h p := by
  have hmem : ∀ p : Fin ts.length, ts.get p ∈ ts := ts.get_mem
  obtain ⟨⟨hhas, hcells, hothers⟩, hread⟩ := foldl_forall
    (fun (h : Host α) (p : Fin ts.length) =>
      h.modify (ts.get p) fun b => b.write 0 (ts.get p).count (buffer.view (Stretch.first p)))
    (fun h' => h'.HasTensors ts ∧ h'.cells.size = h.cells.size ∧
      ∀ u : Tensor, (∀ t ∈ ts, t.cell ≠ u.cell) → h'.read u = h.read u)
    (fun h' p => h'.read (ts.get p) = (owned buffer hosts).live h p)
    (List.finRange ts.length)
    (fun h' hI p _ => by
      obtain ⟨hhas, hcells, hothers⟩ := hI
      refine ⟨hhas.modify (Buffer.size_write ..), ?_, fun u hu => ?_⟩
      · rw [Host.modify, Array.size_modify, hcells]
      · rw [h'.read_modify_of_ne _ (hu _ (hmem p)), hothers u hu])
    (fun h' hI p _ => by
      obtain ⟨hcell, hsize⟩ := hI.1 _ (hmem p)
      rw [h'.read_modify_of_eq _ rfl hcell]
      refine (live_owned_eq (by rw [Buffer.size_write, hsize]) fun i hi => ?_).symm
      exact ((Buffer.write_fills (by omega) _).view_eq i hi).symm)
    (fun h' hI p _ q _ hne hq => by
      rw [h'.read_modify_of_ne, hq]
      intro heq
      have hsite : Site.param p = Site.param q := Site.cell_injective hdistinct heq
      exact hne (Site.param.inj hsite).symm)
    ⟨hh, rfl, fun _ _ => rfl⟩
  have hfold : (owned buffer hosts).sync h = (List.finRange ts.length).foldl
      (fun h p => h.modify (ts.get p) fun b => b.write 0 (ts.get p).count
        (buffer.view (Stretch.first p))) h := by
    rw [sync, hhosts, Stretch.packed_eq_map, List.foldl_map]
  rw [hfold]
  exact ⟨hhas, hcells, hothers, fun p => hread p (List.mem_finRange p)⟩

/-- Reading the host makes every live vector equal to the host vector. -/
theorem reload_owned (hsize : buffer.size = packedLength Tensor.count ts)
    (hh : h.HasTensors ts) (hhosts : hosts = packed Tensor.count 0 ts) :
    ∃ buffer', (owned buffer hosts).reload h = owned buffer' hosts ∧
      buffer'.size = packedLength Tensor.count ts ∧
      ∀ p : Fin ts.length, (owned buffer' hosts).live h p = h.read (ts.get p) := by
  have hread := hh.size_read
  obtain ⟨hsize', hview⟩ := foldl_forall
    (fun (b : Buffer α) (p : Fin ts.length) =>
      b.write (Stretch.first p) (h.read (ts.get p)).size ((h.read (ts.get p)).view 0))
    (fun b => b.size = packedLength Tensor.count ts)
    (fun b p => ∀ i < (ts.get p).count, b.view (Stretch.first p) i = (h.read (ts.get p)).view 0 i)
    (List.finRange ts.length)
    (fun b hb p _ => (Buffer.size_write ..).trans hb)
    (fun b hb p _ i hi => by
      have hroom := hb ▸ Stretch.first_add_le p
      rw [← hread p] at hi hroom
      exact (Buffer.write_fills hroom _).view_eq i hi)
    (fun b hb p _ q _ hne hq i hi => by
      have hroom := hb ▸ Stretch.first_add_le p
      have hdisjoint := Stretch.first_disjoint hne
      rw [← hread p] at hroom hdisjoint
      rw [(Buffer.write_fills hroom _).view_of_disjoint hdisjoint hi, hq i hi])
    hsize
  refine ⟨_, ?_, hsize', fun p => live_owned_eq (hread p) (hview p (List.mem_finRange p))⟩
  rw [reload, hhosts, Stretch.packed_eq_map, List.foldl_map]

/-- At placement the live vectors are the host vectors. -/
theorem live_placed (hh : h.HasTensors ts) (p : Fin ts.length) :
    (owned (ts.foldl (fun b t => b ++ h.read t) #[]) hosts).live h p = h.read (ts.get p) := by
  have hsize : ∀ t ∈ ts, (h.read t).size = t.count := fun t ht => (hh t ht).2
  refine live_owned_eq (hh.size_read p) fun i hi => ?_
  have hsplit : ts = ts.take p ++ ts.get p :: ts.drop (p + 1) := by simp
  have hview := view_foldl_append (hsplit ▸ hsize) hi
  rwa [← hsplit] at hview

end Owned

/-! ### Shared storage -/

theorem live_shared {h : Host α} (hh : h.HasTensors ts) (p : Fin ts.length) :
    (shared ts).live h p = h.read (ts.get p) := by
  refine Buffer.ext_view ((size_live ..).trans (hh.size_read p).symm) fun i hi => ?_
  rw [size_live] at hi
  rw [view_live _ _ hi, ownership, Stretch.slot_reference]
  simp [view, Stretch.whole]

end Store

end GraphTape
