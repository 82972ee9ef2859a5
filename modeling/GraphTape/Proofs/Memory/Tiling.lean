import GraphTape.Memory.Slot
import Mathlib.Data.List.Nodup

/-!
# Blocks end to end

Blocks that `packed` lays end to end do not meet and stay within their total length, whatever
the keys are. The slots of parameters are such blocks in the flat vector of all parameters, and
they leave no gap in it.

* `disjoint_of_lookup_packed`, `lookup_packed_le`: two blocks, and a block in its region.
* `exists_lookup_packed`: a region is covered by its blocks.
* `getElem?_packed`, `packedLength_take_disjoint`, `packedLength_take_add_le`: the same of the
  block at a position.
* `slotsFrom_locations`: a slot of a private buffer has one offset in it and in flat order.
* `slotTable`: the slots of parameters with their owners, in flat order.
* `Graph.lookup_parameters`: the tensor of an owner in the list of all parameters.
-/

namespace GraphTape

/-! ## Packed blocks -/

section Packed

variable {κ : Type} [BEq κ] {size : κ → Nat} {start : Nat} {keys : List κ}

theorem lookup_packed_cons (start : Nat) (k k' : κ) (keys : List κ) :
    (packed size start (k :: keys)).lookup k' =
      if k' == k then some start else (packed size (start + size k) keys).lookup k' := by
  rw [packed, List.lookup_cons]
  cases k' == k <;> rfl

variable [LawfulBEq κ]

/-- A block lies within the region that all blocks take up. -/
theorem lookup_packed_le {k : κ} {o : Nat} (h : (packed size start keys).lookup k = some o) :
    start ≤ o ∧ o + size k ≤ start + packedLength size keys := by
  induction keys generalizing start with
  | nil => simp [packed] at h
  | cons k' keys ih =>
    rw [lookup_packed_cons] at h
    split at h
    · rename_i heq
      obtain rfl := eq_of_beq heq
      obtain rfl := Option.some.inj h
      simp only [packedLength]
      omega
    · have := ih h
      simp only [packedLength]
      omega

/-- The blocks of two keys do not meet. -/
theorem disjoint_of_lookup_packed {k k' : κ} {o o' : Nat} (hne : k ≠ k')
    (h : (packed size start keys).lookup k = some o)
    (h' : (packed size start keys).lookup k' = some o') :
    o + size k ≤ o' ∨ o' + size k' ≤ o := by
  induction keys generalizing start with
  | nil => simp [packed] at h
  | cons k₀ keys ih =>
    rw [lookup_packed_cons] at h h'
    split at h
    · rename_i heq
      obtain rfl := eq_of_beq heq
      obtain rfl := Option.some.inj h
      rw [if_neg (by simpa using hne.symm)] at h'
      exact .inl (lookup_packed_le h').1
    · split at h'
      · rename_i heq
        obtain rfl := eq_of_beq heq
        obtain rfl := Option.some.inj h'
        exact .inr (lookup_packed_le h).1
      · exact ih h h'

theorem isSome_lookup_packed (size : κ → Nat) (start : Nat) (keys : List κ) (k : κ) :
    ((packed size start keys).lookup k).isSome = true ↔ k ∈ keys := by
  induction keys generalizing start with
  | nil => simp [packed]
  | cons k' keys ih =>
    rw [lookup_packed_cons, List.mem_cons]
    split
    · rename_i heq
      simp [eq_of_beq heq]
    · rename_i hne
      rw [ih]
      exact ⟨.inr, fun hmem => hmem.resolve_left fun heq => hne (by simp [heq])⟩

/-- Blocks leave no gap: every element of the region lies in one of them. -/
theorem exists_lookup_packed (hnodup : keys.Nodup) {k : Nat} (hle : start ≤ k)
    (hlt : k < start + packedLength size keys) :
    ∃ key o, (packed size start keys).lookup key = some o ∧ o ≤ k ∧ k < o + size key := by
  induction keys generalizing start with
  | nil =>
    simp only [packedLength] at hlt
    omega
  | cons key keys ih =>
    rw [packedLength] at hlt
    rw [List.nodup_cons] at hnodup
    by_cases hk : k < start + size key
    · exact ⟨key, start, by rw [lookup_packed_cons, if_pos (by simp)], hle, hk⟩
    · obtain ⟨other, o, ho, hmem⟩ := ih hnodup.2 (Nat.le_of_not_lt hk) (by omega)
      have hlisted := (isSome_lookup_packed size _ keys other).1 (by rw [ho, Option.isSome_some])
      refine ⟨other, o, ?_, hmem⟩
      rw [lookup_packed_cons, if_neg, ho]
      intro heq
      exact hnodup.1 (eq_of_beq heq ▸ hlisted)

/-- A key has a block exactly if it is listed. -/
theorem lookup_packed_eq_ite (size : κ → Nat) (start : Nat) (keys : List κ) {k : κ} {c : Bool}
    (hc : k ∈ keys ↔ c = true) : (packed size start keys).lookup k =
      if c then some (((packed size start keys).lookup k).getD 0) else none := by
  have hsome := (isSome_lookup_packed size start keys k).trans hc
  generalize (packed size start keys).lookup k = found at hsome ⊢
  cases found <;> cases c <;> simp at hsome ⊢

end Packed

/-! ## Blocks by position -/

section Position

variable {κ : Type} (size : κ → Nat) (start : Nat) (keys : List κ)

/-- A block stands after the blocks of the keys before it. -/
theorem getElem?_packed (p : Nat) : (packed size start keys)[p]? =
    keys[p]?.map fun k => (k, start + packedLength size (keys.take p)) := by
  induction keys generalizing start p with
  | nil => simp [packed]
  | cons k keys ih =>
    cases p with
    | zero => simp [packed, packedLength]
    | succ p => simp [packed, packedLength, ih, Nat.add_assoc]

variable {size keys}

theorem packedLength_append (front back : List κ) :
    packedLength size (front ++ back) = packedLength size front + packedLength size back := by
  induction front with
  | nil => simp [packedLength]
  | cons k front ih => rw [List.cons_append, packedLength, packedLength, ih, Nat.add_assoc]

/-- A block ends where the block of the next position begins. -/
theorem packedLength_take_succ {p : Nat} (hp : p < keys.length) :
    packedLength size (keys.take (p + 1)) = packedLength size (keys.take p) + size keys[p] := by
  rw [List.take_add_one, List.getElem?_eq_getElem hp, packedLength_append]
  rfl

theorem packedLength_take_mono {p q : Nat} (h : p ≤ q) :
    packedLength size (keys.take p) ≤ packedLength size (keys.take q) := by
  obtain ⟨n, rfl⟩ := Nat.exists_eq_add_of_le h
  rw [List.take_add, packedLength_append]
  exact Nat.le_add_right ..

/-- A block lies within the region that all blocks take up. -/
theorem packedLength_take_add_le {p : Nat} (hp : p < keys.length) :
    packedLength size (keys.take p) + size keys[p] ≤ packedLength size keys := by
  have hle : packedLength size (keys.take (p + 1)) ≤ packedLength size (keys.take keys.length) :=
    packedLength_take_mono hp
  rwa [List.take_length, packedLength_take_succ hp] at hle

/-- The blocks of two positions do not meet. -/
theorem packedLength_take_disjoint {p q : Nat} (hp : p < keys.length) (hq : q < keys.length)
    (hne : p ≠ q) :
    packedLength size (keys.take p) + size keys[p] ≤ packedLength size (keys.take q) ∨
      packedLength size (keys.take q) + size keys[q] ≤ packedLength size (keys.take p) := by
  rw [← packedLength_take_succ hp, ← packedLength_take_succ hq]
  rcases Nat.lt_or_gt_of_ne hne with hlt | hlt
  · exact .inl (packedLength_take_mono hlt)
  · exact .inr (packedLength_take_mono hlt)

/-- Blocks leave no gap. -/
theorem exists_packedLength_take {k : Nat} (hk : k < packedLength size keys) :
    ∃ p, ∃ hp : p < keys.length, packedLength size (keys.take p) ≤ k ∧
      k < packedLength size (keys.take p) + size keys[p] := by
  induction keys generalizing k with
  | nil => simp [packedLength] at hk
  | cons key keys ih =>
    rw [packedLength] at hk
    by_cases hlt : k < size key
    · exact ⟨0, by simp, by simp [packedLength], by simpa [packedLength] using hlt⟩
    · obtain ⟨p, hp, hle, hend⟩ := ih (k := k - size key) (by omega)
      refine ⟨p + 1, by simpa using hp, ?_, ?_⟩
      · rw [List.take_succ_cons, packedLength]
        omega
      · rw [List.take_succ_cons, packedLength, List.getElem_cons_succ]
        omega

end Position

/-! ## Tables of slots -/

/-- The slot of the `i`th tensor, when as many elements are stored in the private buffer as come
before it in flat order. -/
def alignedSlot (ownership : Ownership) (i flat len : Nat) : Slot :=
  match ownership with
  | .copy => { buffer := 0, offset := flat, flat, len }
  | .reference => { buffer := i, offset := 0, flat, len }

@[simp]
theorem alignedSlot_flat (ownership : Ownership) (i flat len : Nat) :
    (alignedSlot ownership i flat len).flat = flat := by
  cases ownership <;> rfl

@[simp]
theorem alignedSlot_len (ownership : Ownership) (i flat len : Nat) :
    (alignedSlot ownership i flat len).len = len := by
  cases ownership <;> rfl

/-- The slots of tensors, from the `i`th tensor and the flat offset on. -/
def alignedSlots (ownership : Ownership) : Nat → Nat → List Tensor → List Slot
  | _, _, [] => []
  | i, flat, t :: ts =>
    alignedSlot ownership i flat t.count :: alignedSlots ownership (i + 1) (flat + t.count) ts

/-- A copied tensor fills as much of the private buffer as it takes up in flat order. So the two
offsets of a slot, which are counted apart, stay the same. -/
theorem slotsFrom_locations (ownership : Ownership) (i flat : Nat) (ts : List Tensor) :
    slotsFrom flat ts (locations ownership i flat ts) = alignedSlots ownership i flat ts := by
  induction ts generalizing i flat with
  | nil => cases ownership <;> rfl
  | cons t ts ih =>
    have hrest := ih (i + 1) (flat + t.count)
    cases ownership <;> exact congrArg (List.cons _) hrest

/-- The slots of parameters with their owners, from the `i`th buffer and the flat offset on. -/
def slotTable (ownership : Ownership) (i flat : Nat) (ps : List (Owner × Tensor)) :
    List (Owner × Slot) :=
  (ps.map Prod.fst).zip (alignedSlots ownership i flat (ps.map Prod.snd))

/-- The number of elements of all parameters. -/
def totalCount (ps : List (Owner × Tensor)) : Nat := packedLength (fun p => p.2.count) ps

theorem totalCount_eq_packedLength (ps : List (Owner × Tensor)) :
    totalCount ps = packedLength Tensor.count (ps.map Prod.snd) := by
  induction ps with
  | nil => rfl
  | cons p ps ih => rw [List.map_cons, packedLength, ← ih, totalCount, packedLength]; rfl

section SlotTable

variable {ownership : Ownership} {i flat : Nat} {ps : List (Owner × Tensor)}

theorem slotTable_cons (p : Owner × Tensor) :
    slotTable ownership i flat (p :: ps) =
      (p.1, alignedSlot ownership i flat p.2.count) ::
        slotTable ownership (i + 1) (flat + p.2.count) ps := rfl

theorem Graph.slots_eq_slotTable {α : Type} (g : Graph α) (ownership : Ownership) :
    g.slots ownership = slotTable ownership 0 0 g.parameters := by
  rw [Graph.slots, GraphTape.slots, slotsFrom_locations, slotTable]

theorem lookup_slotTable_cons (p : Owner × Tensor) (o : Owner) :
    (slotTable ownership i flat (p :: ps)).lookup o =
      if o == p.1 then some (alignedSlot ownership i flat p.2.count)
      else (slotTable ownership (i + 1) (flat + p.2.count) ps).lookup o := by
  rw [slotTable_cons, List.lookup_cons]
  cases o == p.1 <;> rfl

theorem map_fst_slotTable : (slotTable ownership i flat ps).map Prod.fst = ps.map Prod.fst := by
  induction ps generalizing i flat with
  | nil => rfl
  | cons p ps ih => rw [slotTable_cons, List.map_cons, ih, List.map_cons]

theorem packedLength_slotTable :
    packedLength (fun p : Owner × Slot => p.2.len) (slotTable ownership i flat ps) =
      totalCount ps := by
  induction ps generalizing i flat with
  | nil => rfl
  | cons p ps ih =>
    rw [slotTable_cons, packedLength, ih, alignedSlot_len]
    rfl

/-- Tensors that are packed stand at the flat offsets of their slots. -/
theorem packed_eq_slotTable (ownership : Ownership) (i flat : Nat) (ps : List (Owner × Tensor)) :
    packed Tensor.count flat (ps.map Prod.snd) =
      (ps.zip (slotTable ownership i flat ps)).map fun x => (x.1.2, x.2.2.flat) := by
  induction ps generalizing i flat with
  | nil => rfl
  | cons p ps ih =>
    rw [List.map_cons, packed, ih (i + 1), slotTable_cons, List.zip_cons_cons, List.map_cons,
      alignedSlot_flat]

/-- An owner has a slot exactly if it has a tensor, with as many elements. -/
theorem lookup_slotTable (ownership : Ownership) (i flat : Nat) (ps : List (Owner × Tensor))
    (o : Owner) :
    ((slotTable ownership i flat ps).lookup o).map Slot.len = (ps.lookup o).map Tensor.count := by
  induction ps generalizing i flat with
  | nil => rfl
  | cons p ps ih =>
    rw [lookup_slotTable_cons, List.lookup_cons]
    cases o == p.1 with
    | true => exact congrArg some (alignedSlot_len ..)
    | false => exact ih (i + 1) (flat + p.2.count)

/-- A slot is a block of the flat vector, as long as the tensor of its owner. -/
theorem lookup_packed_of_lookup_slotTable {o : Owner} {s : Slot}
    (h : (slotTable ownership i flat ps).lookup o = some s) :
    ∃ t : Tensor, s.len = t.count ∧
      (packed (fun p : Owner × Tensor => p.2.count) flat ps).lookup (o, t) = some s.flat := by
  induction ps generalizing i flat with
  | nil => simp [slotTable] at h
  | cons p ps ih =>
    rw [lookup_slotTable_cons] at h
    split at h
    · rename_i heq
      obtain rfl := eq_of_beq heq
      obtain rfl := Option.some.inj h
      refine ⟨p.2, alignedSlot_len .., ?_⟩
      rw [lookup_packed_cons, if_pos (by simp), alignedSlot_flat]
    · rename_i hne
      obtain ⟨t, hlen, ht⟩ := ih h
      refine ⟨t, hlen, ?_⟩
      rw [lookup_packed_cons, if_neg, ht]
      intro heq
      exact hne (by simp [← eq_of_beq heq])

/-- A slot lies within the flat vector of all parameters. -/
theorem lookup_slotTable_le {o : Owner} {s : Slot}
    (h : (slotTable ownership i flat ps).lookup o = some s) :
    flat ≤ s.flat ∧ s.flat + s.len ≤ flat + totalCount ps := by
  obtain ⟨t, hlen, ht⟩ := lookup_packed_of_lookup_slotTable h
  have hle := lookup_packed_le ht
  exact ⟨hle.1, hlen ▸ hle.2⟩

/-- The slots of two owners do not meet in the flat vector. -/
theorem disjoint_of_lookup_slotTable {o o' : Owner} {s s' : Slot} (hne : o ≠ o')
    (h : (slotTable ownership i flat ps).lookup o = some s)
    (h' : (slotTable ownership i flat ps).lookup o' = some s') :
    s.flat + s.len ≤ s'.flat ∨ s'.flat + s'.len ≤ s.flat := by
  obtain ⟨t, hlen, ht⟩ := lookup_packed_of_lookup_slotTable h
  obtain ⟨t', hlen', ht'⟩ := lookup_packed_of_lookup_slotTable h'
  have hpair : (o, t) ≠ (o', t') := fun heq => hne (congrArg Prod.fst heq)
  have hdisjoint := disjoint_of_lookup_packed hpair ht ht'
  rw [hlen, hlen']
  exact hdisjoint

/-- What decides where a slot stands: the tensors that are laid before it. -/
theorem exists_split_of_lookup_slotTable {o : Owner} {s : Slot}
    (h : (slotTable ownership i flat ps).lookup o = some s) :
    ∃ before t after, ps = before ++ (o, t) :: after ∧ s.flat = flat + totalCount before ∧
      (ownership = .copy → s.offset = s.flat) ∧
      (ownership = .reference → s.buffer = i + before.length ∧ s.offset = 0) := by
  induction ps generalizing i flat with
  | nil => simp [slotTable] at h
  | cons p ps ih =>
    rw [lookup_slotTable_cons] at h
    split at h
    · rename_i heq
      obtain rfl := eq_of_beq heq
      obtain rfl := Option.some.inj h
      refine ⟨[], p.2, ps, rfl, ?_⟩
      cases ownership <;> simp [alignedSlot, totalCount, packedLength]
    · obtain ⟨before, t, after, rfl, hflat, hcopy, hreference⟩ := ih h
      refine ⟨p :: before, t, after, rfl, ?_, hcopy, fun hown => ?_⟩
      · rw [hflat, totalCount, totalCount, packedLength, Nat.add_assoc]
      · obtain ⟨hbuffer, hoffset⟩ := hreference hown
        exact ⟨by rw [hbuffer, List.length_cons]; omega, hoffset⟩

/-- Every element of the flat vector lies in a slot. -/
theorem exists_lookup_slotTable (ownership : Ownership) (i : Nat)
    (hnodup : (ps.map Prod.fst).Nodup) {k : Nat} (hle : flat ≤ k)
    (hlt : k < flat + totalCount ps) :
    ∃ o s, (slotTable ownership i flat ps).lookup o = some s ∧ s.flat ≤ k ∧
      k < s.flat + s.len := by
  induction ps generalizing i flat with
  | nil =>
    simp only [totalCount, packedLength] at hlt
    omega
  | cons p ps ih =>
    have hcount : totalCount (p :: ps) = p.2.count + totalCount ps := rfl
    rw [hcount] at hlt
    rw [List.map_cons, List.nodup_cons] at hnodup
    by_cases hk : k < flat + p.2.count
    · refine ⟨p.1, _, by rw [lookup_slotTable_cons, if_pos (by simp)], ?_⟩
      rw [alignedSlot_flat, alignedSlot_len]
      exact ⟨hle, hk⟩
    · obtain ⟨o, s, ho, hs⟩ := ih (i + 1) hnodup.2 (Nat.le_of_not_lt hk) (by omega)
      refine ⟨o, s, ?_, hs⟩
      have hmem : o ∈ ps.map Prod.fst := by
        obtain ⟨l, l', hsplit, -⟩ := List.lookup_eq_some_iff.1 ho
        have hkeys := congrArg (List.map Prod.fst) hsplit
        rw [map_fst_slotTable] at hkeys
        exact hkeys ▸ by simp
      rw [lookup_slotTable_cons, if_neg, ho]
      intro heq
      exact hnodup.1 (eq_of_beq heq ▸ hmem)

end SlotTable

/-! ## The parameters of a graph -/

section Keyed

variable {κ ι τ : Type} [BEq κ] [LawfulBEq κ] (key : Nat → κ)

/-- Looking up a position in a list whose entries are keyed by their positions. -/
theorem lookup_map_zipIdx (hkey : Function.Injective key) (f : ι → τ) (xs : List ι) (s k : Nat) :
    ((xs.zipIdx s).map fun x => (key x.2, f x.1)).lookup (key (s + k)) = xs[k]?.map f := by
  induction xs generalizing s k with
  | nil => rfl
  | cons x xs ih =>
    rw [List.zipIdx_cons, List.map_cons, List.lookup_cons]
    cases k with
    | zero => simp
    | succ k =>
      have hne : (key (s + (k + 1)) == key s) = false :=
        beq_false_of_ne fun heq => by have := hkey heq; omega
      rw [hne, List.getElem?_cons_succ, ← ih (s + 1) k]
      simp only [Nat.add_assoc, Nat.add_comm 1 k]

/-- The same for a list of which some entries are left out. -/
theorem lookup_filterMap_zipIdx (hkey : Function.Injective key) (f : ι → Option τ) (xs : List ι)
    (s k : Nat) :
    ((xs.zipIdx s).filterMap fun x => (f x.1).map fun t => (key x.2, t)).lookup (key (s + k)) =
      xs[k]?.bind f := by
  induction xs generalizing s k with
  | nil => rfl
  | cons x xs ih =>
    have hlater : ∀ k, ((xs.zipIdx (s + 1)).filterMap fun x => (f x.1).map fun t =>
        (key x.2, t)).lookup (key (s + (k + 1))) = xs[k]?.bind f := by
      intro k
      rw [← ih (s + 1) k]
      simp only [Nat.add_assoc, Nat.add_comm 1 k]
    rw [List.zipIdx_cons]
    cases hf : f x with
    | none =>
      rw [List.filterMap_cons_none (by simp [hf])]
      cases k with
      | zero =>
        rw [List.getElem?_cons_zero, Option.bind_some, hf, List.lookup_eq_none_iff]
        intro p hp
        obtain ⟨⟨y, j⟩, hy, hyp⟩ := List.mem_filterMap.1 hp
        obtain ⟨t, -, rfl⟩ := Option.map_eq_some_iff.1 hyp
        have hj := (List.mem_zipIdx hy).1
        exact bne_iff_ne.2 fun heq => by have := hkey heq; omega
      | succ k => exact hlater k
    | some t =>
      rw [List.filterMap_cons_some (b := (key s, t)) (by simp [hf]), List.lookup_cons]
      cases k with
      | zero => simp [hf]
      | succ k =>
        have hne : (key (s + (k + 1)) == key s) = false :=
          beq_false_of_ne fun heq => by have := hkey heq; omega
        rw [hne]
        exact hlater k

/-- In a table in which no key is listed twice, an entry is what is found under its key. -/
theorem mem_iff_lookup {table : List (κ × τ)} (h : (table.map Prod.fst).Nodup) {k : κ} {x : τ} :
    (k, x) ∈ table ↔ table.lookup k = some x := by
  induction table with
  | nil => simp
  | cons p table ih =>
    rw [List.map_cons, List.nodup_cons] at h
    rw [List.mem_cons, List.lookup_cons, ih h.2]
    by_cases heq : k = p.1
    · have hnone : table.lookup p.1 = none := by
        rw [List.lookup_eq_none_iff]
        exact fun q hq => bne_iff_ne.2 fun hkey => h.1 (hkey ▸ List.mem_map_of_mem hq)
      simp [heq, hnone, Prod.ext_iff, eq_comm]
    · rw [beq_false_of_ne heq]
      simp [heq, Prod.ext_iff]

/-- Such a table is made up of its keys and of what is found under them. -/
theorem eq_map_lookup {table : List (κ × τ)} (h : (table.map Prod.fst).Nodup) (d : τ) :
    table = (table.map Prod.fst).map fun k => (k, (table.lookup k).getD d) := by
  rw [List.map_map]
  refine (List.map_id table).symm.trans (List.map_congr_left fun p hp => ?_)
  rw [Function.comp_apply, (mem_iff_lookup h).1 hp]
  rfl

end Keyed

namespace Graph

variable {α : Type} (g : Graph α)

theorem lookup_weights (e : Nat) :
    g.weights.lookup (.weight e) = g.edges[e]?.map Edge.weight := by
  have := lookup_map_zipIdx Owner.weight (fun _ _ h => Owner.weight.inj h) Edge.weight
    g.edges.toList 0 e
  simpa [weights] using this

theorem lookup_biases (n : Nat) : g.biases.lookup (.bias n) = g.bias? n := by
  have := lookup_filterMap_zipIdx Owner.bias (fun _ _ h => Owner.bias.inj h) Node.bias
    g.nodes.toList 0 n
  simpa [biases, bias?] using this

/-- An owner's tensor in the list of all parameters. -/
theorem lookup_parameters (o : Owner) : g.parameters.lookup o = g.tensor? o := by
  rw [parameters, List.lookup_append]
  cases o with
  | weight e =>
    have hnone : g.biases.lookup (.weight e) = none := by
      rw [List.lookup_eq_none_iff]
      intro p hp
      obtain ⟨x, -, hx⟩ := List.mem_filterMap.1 hp
      obtain ⟨t, -, rfl⟩ := Option.map_eq_some_iff.1 hx
      rfl
    rw [lookup_weights, hnone, Option.or_none]
    rfl
  | bias n =>
    have hnone : g.weights.lookup (.bias n) = none := by
      rw [List.lookup_eq_none_iff]
      intro p hp
      obtain ⟨x, -, rfl⟩ := List.mem_map.1 hp
      rfl
    rw [hnone, lookup_biases, Option.none_or]
    rfl

/-- The owners of all parameters, in flat order. -/
def owners : List Owner := g.parameters.map Prod.fst

theorem map_fst_slots (ownership : Ownership) : (g.slots ownership).map Prod.fst = g.owners := by
  rw [g.slots_eq_slotTable, map_fst_slotTable, owners]

/-- No owner is listed twice. -/
theorem nodup_owners : g.owners.Nodup := by
  have hindices : ∀ {ι : Type} (xs : List ι), xs.zipIdx.Pairwise fun x y => x.2 ≠ y.2 := by
    intro ι xs
    rw [← List.pairwise_map (f := Prod.snd), List.zipIdx_map_snd]
    exact List.nodup_range'
  rw [owners, parameters, List.map_append, List.nodup_append]
  refine ⟨?_, ?_, ?_⟩
  · rw [List.Nodup, List.pairwise_map, weights, List.pairwise_map]
    exact (hindices _).imp fun hne heq => hne (Owner.weight.inj heq)
  · rw [List.Nodup, List.pairwise_map, biases, List.pairwise_filterMap]
    refine (hindices _).imp fun hne p hp q hq heq => hne ?_
    obtain ⟨t, -, rfl⟩ := Option.map_eq_some_iff.1 hp
    obtain ⟨u, -, rfl⟩ := Option.map_eq_some_iff.1 hq
    exact Owner.bias.inj heq
  · intro o ho o' ho' heq
    obtain ⟨p, hp, rfl⟩ := List.mem_map.1 ho
    obtain ⟨q, hq, rfl⟩ := List.mem_map.1 ho'
    obtain ⟨x, -, rfl⟩ := List.mem_map.1 hp
    obtain ⟨y, -, hy⟩ := List.mem_filterMap.1 hq
    obtain ⟨t, -, rfl⟩ := Option.map_eq_some_iff.1 hy
    exact Owner.noConfusion heq

variable {g}

theorem mem_parameters {o : Owner} {t : Tensor} :
    (o, t) ∈ g.parameters ↔ g.tensor? o = some t := by
  rw [← g.lookup_parameters, mem_iff_lookup g.nodup_owners]

theorem eq_of_owner_eq {p q : Owner × Tensor} (hp : p ∈ g.parameters) (hq : q ∈ g.parameters)
    (h : p.1 = q.1) : p = q :=
  List.inj_on_of_nodup_map g.nodup_owners hp hq h

/-- The owners are all edges and then the nodes that have a bias, by ascending id. -/
theorem owners_eq (g : Graph α) : g.owners =
    g.edgeIds.map .weight ++ (g.nodeIds.filter fun n => (g.bias? n).isSome).map .bias := by
  have hindexed : g.nodes.toList.zipIdx.map (fun x => (some x.1, x.2)) =
      g.nodeIds.map fun n => (g.nodes[n]?, n) := by
    refine List.ext_getElem? fun n => ?_
    by_cases hn : n < g.nodes.size <;> simp [nodeIds, numNodes, hn]
  have hbiases : g.biases.map Prod.fst =
      (g.nodes.toList.zipIdx.map fun x => (some x.1, x.2)).filterMap fun x =>
        (x.1.bind Node.bias).map fun _ => Owner.bias x.2 := by
    rw [biases, List.map_filterMap, List.filterMap_map]
    refine List.filterMap_congr fun x _ => ?_
    rw [Option.map_map]
    rfl
  rw [owners, parameters, List.map_append, hbiases, hindexed]
  congr 1
  · rw [weights, List.map_map, edgeIds, numEdges, ← Array.length_toList, List.range_eq_range',
      ← List.zipIdx_map_snd 0, List.map_map]
    rfl
  · rw [List.filterMap_map, ← List.filterMap_eq_map, List.filterMap_filter]
    refine List.filterMap_congr fun n _ => ?_
    cases hbias : g.bias? n with
    | none => exact congrArg (Option.map _) hbias
    | some t => exact congrArg (Option.map _) hbias

/-- The parameter of the same number as an edge is its weight. -/
theorem getElem?_owners_weight {e : Nat} (he : e < g.numEdges) :
    g.owners[e]? = some (.weight e) := by
  rw [g.owners_eq, List.getElem?_append_left (by simpa [edgeIds] using he)]
  simp [edgeIds, he]

theorem mem_owners {o : Owner} : o ∈ g.owners ↔ (g.tensor? o).isSome = true := by
  simp [owners, mem_parameters, Option.isSome_iff_exists]

end Graph

end GraphTape
